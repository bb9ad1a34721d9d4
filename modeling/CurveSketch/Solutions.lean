import CurveSketch.Json.Decoder
import CurveSketch.Json.Reader

/-!
# Solutions

The accepted shapes of a question, each a specification with the response it earns, in order of
priority, and the response to a drawing that has none of them. Responses may be of any type; the
usual `Response` says whether the drawing is right, with an explanation of any content.
-/

namespace CurveSketch

/-- An accepted shape. -/
structure Solution (R : Type) where
  /-- The text of its specification. -/
  definition : String
  /-- The response it earns. -/
  response : R

/-- The accepted shapes of a question. -/
structure Solutions (R : Type) where
  /-- The shapes, the first one that fits being decisive. -/
  answers : List (Solution R)
  /-- The response where none fits. -/
  unmatched : R

namespace Solutions

variable {R : Type}

/-- Finds an accepted shape in a JSON value. -/
def decodeSolution? (response? : Json → Option R) (v : Json) : Option (Solution R) := do
  let field ← v.fields? ["graphDefinition", "response"]
  let definition ← Json.required Json.text? (field "graphDefinition")
  let response ← Json.required response? (field "response")
  return ⟨definition, response⟩

/-- Finds the accepted shapes of a question in a JSON value. What the content of a response may be
depends on how deep it stands, which the reader of responses is told. -/
def decode? (response? : Nat → Json → Option R) (v : Json) : Option (Solutions R) := do
  let field ← v.fields? ["answers", "unmatchedResponse"]
  let answers ← Json.required (Json.list? (decodeSolution? (response? 3))) (field "answers")
  let unmatched ← Json.required (response? 1) (field "unmatchedResponse")
  return ⟨answers, unmatched⟩

/-- The JSON value of the accepted shapes of a question. -/
def encode (response : R → Json) (s : Solutions R) : Json :=
  .object (Json.member "answers" (.array (s.answers.map fun a =>
      .object (Json.member "graphDefinition" (.ofString a.definition) ++
        Json.member "response" (response a.response)))) ++
    Json.member "unmatchedResponse" (response s.unmatched))

/-- Finds the accepted shapes of a question in JSON text. -/
def parse? (response? : Nat → Json → Option R) (text : String) : Option (Solutions R) :=
  (Json.parse? text).bind (decode? response?)

end Solutions

/-- What is said about a drawing. -/
structure Response where
  /-- Whether the drawing is right. -/
  correct : Bool
  /-- An explanation. -/
  explanation? : Option Json

namespace Response

/-- How many levels of arrays and objects a text may have. -/
def maxDepth : Nat :=
  127

/-- Finds a response in a JSON value that stands inside `depth` others. -/
def decode? (depth : Nat) (v : Json) : Option Response := do
  let field ← v.fields? ["correct", "explanation"]
  let correct ← Json.required Json.bool? (field "correct")
  let explanation? ← Json.optional (Json.content? (maxDepth - (depth + 1))) (field "explanation")
  return ⟨correct, explanation?⟩

/-- The JSON value of a response. -/
def encode (r : Response) : Json :=
  .object (Json.member "correct" (.bool r.correct) ++ Json.member? "explanation" r.explanation?)

end Response

end CurveSketch
