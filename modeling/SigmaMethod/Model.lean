import SigmaMethod.Json.Records
import SigmaMethod.Text.File

/-!
# Model files

A model is the dimension of a problem and its incidences, as JSON.
-/

namespace SigmaMethod

structure Model where
  dimension : Nat
  incidences : List Incidence

namespace Model

def codec : Json.Codec Model :=
  (Json.Fields.required "dimension" .nat <|
    .optional "incidence" (.list Json.incidence) [] .done).codec.map
    (fun (dimension, incidences, ()) => ⟨dimension, incidences⟩)
    (fun m => (m.dimension, m.incidences, ()))

def signature (m : Model) : Outcome (Signature m.dimension) :=
  Signature.ofIncidences m.dimension m.incidences

end Model

def Model.load (content : Option ByteArray) : Except (Text.LoadFault Json.Fault) Model := do
  let text ← Text.ofFile content
  match codec.decode text with
  | .ok m => return m
  | .error f => throw (.unparsable f)

end SigmaMethod
