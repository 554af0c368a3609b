/-!
# Text files
-/

namespace SigmaMethod.Text

inductive LoadFault (φ : Type) where
  | unreadable
  | unparsable (fault : φ)

def ofFile {φ : Type} (content : Option ByteArray) : Except (LoadFault φ) String :=
  match content >>= String.fromUTF8? with
  | some text => .ok text
  | none => .error .unreadable

end SigmaMethod.Text
