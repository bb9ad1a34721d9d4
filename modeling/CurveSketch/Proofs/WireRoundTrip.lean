import CurveSketch.Answer
import CurveSketch.Proofs.JsonRecord
import CurveSketch.Solutions

/-!
# What was decoded is encoded without loss

Points, curves, labels, answers, envelopes and solutions are recovered from their encodings : a list
that was left out stays left out, an empty one stays empty, and an explanation is kept as it is.
-/

namespace CurveSketch

open Json

theorem DrawnPoint.recovers : Recovers decode? encode := by
  refine recovers_record
    (fun p =>
      [("ind", p.index?.map ofInt), ("x", some (ofFloat p.x)), ("y", some (ofFloat p.y))])
    (fun p => by simp [encode, record, member, member?]) (fun _ => rfl) (by decide)
    (fun _ => rfl) fun field p hrange h => ?_
  simp only [Option.bind_eq_bind, Option.bind_eq_some_iff] at h
  obtain ⟨index?, hindex, x, hx, y, hy, heq⟩ := h
  obtain rfl := Option.some.inj heq
  obtain ⟨hindex, hindexClean⟩ := fieldRecovers_optional recovers_int? _ _ (hrange _) hindex
  obtain ⟨hx, hxClean⟩ := fieldRecovers_required recovers_float? _ _ (hrange _) hx
  obtain ⟨hy, hyClean⟩ := fieldRecovers_required recovers_float? _ _ (hrange _) hy
  simp only [List.forall_mem_cons]
  refine ⟨⟨hindexClean, hxClean, hyClean, List.forall_mem_nil _⟩, fun field' h' => ?_⟩
  obtain ⟨hindex', hx', hy', _⟩ := h'
  simp [hindex', hx', hy', hindex, hx, hy]

theorem recovers_drawnPoints? : Recovers drawnPoints? encodePoints :=
  recovers_list? DrawnPoint.recovers

theorem Curve.recovers : Recovers decode? encode := by
  refine recovers_record
    (fun c =>
      [("pts", some (encodePoints c.points)), ("maxima", c.maxima?.map encodePoints),
        ("minima", c.minima?.map encodePoints), ("interX", c.interX?.map encodePoints),
        ("interY", c.interY?.map encodePoints), ("endPt", c.ends?.map encodePoints),
        ("colorIdx", c.color?.map ofInt)])
    (fun c => by simp [encode, record, member, member?]) (fun _ => rfl) (by decide)
    (fun _ => rfl) fun field c hrange h => ?_
  simp only [Option.bind_eq_bind, Option.bind_eq_some_iff] at h
  obtain ⟨points, hpoints, maxima?, hmaxima, minima?, hminima, interX?, hinterX, interY?, hinterY,
    ends?, hends, color?, hcolor, heq⟩ := h
  obtain rfl := Option.some.inj heq
  have hlist := fieldRecovers_optional recovers_drawnPoints?
  obtain ⟨hpoints, hpointsClean⟩ :=
    fieldRecovers_required recovers_drawnPoints? _ _ (hrange _) hpoints
  obtain ⟨hmaxima, hmaximaClean⟩ := hlist _ _ (hrange _) hmaxima
  obtain ⟨hminima, hminimaClean⟩ := hlist _ _ (hrange _) hminima
  obtain ⟨hinterX, hinterXClean⟩ := hlist _ _ (hrange _) hinterX
  obtain ⟨hinterY, hinterYClean⟩ := hlist _ _ (hrange _) hinterY
  obtain ⟨hends, hendsClean⟩ := hlist _ _ (hrange _) hends
  obtain ⟨hcolor, hcolorClean⟩ := fieldRecovers_optional recovers_int? _ _ (hrange _) hcolor
  simp only [List.forall_mem_cons]
  refine ⟨⟨hpointsClean, hmaximaClean, hminimaClean, hinterXClean, hinterYClean, hendsClean,
    hcolorClean, List.forall_mem_nil _⟩, fun field' h' => ?_⟩
  obtain ⟨hpoints', hmaxima', hminima', hinterX', hinterY', hends', hcolor', _⟩ := h'
  simp [hpoints', hmaxima', hminima', hinterX', hinterY', hends', hcolor', hpoints, hmaxima,
    hminima, hinterX, hinterY, hends, hcolor]

theorem Label.recovers : Recovers decode? encode := by
  refine recovers_record
    (fun l =>
      [("text", some (ofString l.text)), ("x", some (ofFloat l.x)), ("y", some (ofFloat l.y))])
    (fun l => by simp [encode, record, member, member?]) (fun _ => rfl) (by decide)
    (fun _ => rfl) fun field l hrange h => ?_
  simp only [Option.bind_eq_bind, Option.bind_eq_some_iff] at h
  obtain ⟨text, htext, x, hx, y, hy, heq⟩ := h
  obtain rfl := Option.some.inj heq
  obtain ⟨htext, htextClean⟩ := fieldRecovers_required recovers_text? _ _ (hrange _) htext
  obtain ⟨hx, hxClean⟩ := fieldRecovers_required recovers_float? _ _ (hrange _) hx
  obtain ⟨hy, hyClean⟩ := fieldRecovers_required recovers_float? _ _ (hrange _) hy
  simp only [List.forall_mem_cons]
  refine ⟨⟨htextClean, hxClean, hyClean, List.forall_mem_nil _⟩, fun field' h' => ?_⟩
  obtain ⟨htext', hx', hy', _⟩ := h'
  simp [htext', hx', hy', htext, hx, hy]

theorem Answer.recovers : Recovers decode? encode := by
  refine recovers_record
    (fun a =>
      [("canvasWidth", some (ofFloat a.canvasWidth)),
        ("canvasHeight", some (ofFloat a.canvasHeight)),
        ("curves", some (.array (a.curves.map Curve.encode))),
        ("freeSymbols", a.labels?.map fun ls => .array (ls.map Label.encode))])
    (fun a => by simp [encode, record, member, member?]) (fun _ => rfl) (by decide)
    (fun _ => rfl) fun field a hrange h => ?_
  simp only [Option.bind_eq_bind, Option.bind_eq_some_iff] at h
  obtain ⟨width, hwidth, height, hheight, curves, hcurves, labels?, hlabels, heq⟩ := h
  obtain rfl := Option.some.inj heq
  have hsize := fieldRecovers_defaulted recovers_float? 0 rfl
    (.number ⟨_, rfl, (rfl : (0 : Float).isFinite = true)⟩)
  obtain ⟨hwidth, hwidthClean⟩ := hsize _ _ (hrange _) hwidth
  obtain ⟨hheight, hheightClean⟩ := hsize _ _ (hrange _) hheight
  obtain ⟨hcurves, hcurvesClean⟩ := fieldRecovers_defaulted (recovers_list? Curve.recovers)
    [] rfl (.array (List.forall_mem_nil _)) _ _ (hrange _) hcurves
  obtain ⟨hlabels, hlabelsClean⟩ :=
    fieldRecovers_optional (recovers_list? Label.recovers) _ _ (hrange _) hlabels
  simp only [List.forall_mem_cons]
  refine ⟨⟨hwidthClean, hheightClean, hcurvesClean, hlabelsClean, List.forall_mem_nil _⟩,
    fun field' h' => ?_⟩
  obtain ⟨hwidth', hheight', hcurves', hlabels', _⟩ := h'
  simp [hwidth', hheight', hcurves', hlabels', hwidth, hheight, hcurves, hlabels]

theorem Envelope.decode?_encode (e : Envelope) : decode? (encode e) = some e :=
  rfl

theorem Envelope.clean_encode (e : Envelope) : e.encode.Clean :=
  .object (by simp [member]) (by simp [member, ofString, every_string_iff])

theorem Response.recovers (depth : Nat) : Recovers (decode? depth) encode := by
  refine recovers_record
    (fun r => [("correct", some (.bool r.correct)), ("explanation", r.explanation?)])
    (fun r => by simp [encode, record, member, member?]) (fun _ => rfl) (by decide)
    (fun _ => rfl) fun field r hrange h => ?_
  simp only [Option.bind_eq_bind, Option.bind_eq_some_iff] at h
  obtain ⟨correct, hcorrect, explanation?, hexplanation, heq⟩ := h
  obtain rfl := Option.some.inj heq
  obtain ⟨hcorrect, hcorrectClean⟩ := fieldRecovers_required recovers_bool? _ _ (hrange _) hcorrect
  obtain ⟨hexplanation, hexplanationClean⟩ :=
    fieldRecovers_optional (recovers_content? _) _ _ (hrange _) hexplanation
  rw [Option.map_id, id_eq] at hexplanation hexplanationClean
  simp only [List.forall_mem_cons]
  refine ⟨⟨hcorrectClean, hexplanationClean, List.forall_mem_nil _⟩,
    fun field' h' => ?_⟩
  obtain ⟨hcorrect', hexplanation', _⟩ := h'
  simp [hcorrect', hexplanation', hcorrect, hexplanation]

namespace Solutions

variable {R : Type}

/-- The JSON value of an accepted shape. -/
def encodeSolution (response : R → Json) (s : Solution R) : Json :=
  .object (member "graphDefinition" (.ofString s.definition) ++
    member "response" (response s.response))

theorem recovers_decodeSolution? {response? : Json → Option R} {response : R → Json}
    (hresponse : Recovers response? response) :
    Recovers (decodeSolution? response?) (encodeSolution response) := by
  refine recovers_record
    (fun s => [("graphDefinition", some (ofString s.definition)),
      ("response", some (response s.response))])
    (fun s => by simp [encodeSolution, record, member, member?]) (fun _ => rfl) (by decide)
    (fun _ => rfl) fun field s hrange h => ?_
  simp only [Option.bind_eq_bind, Option.bind_eq_some_iff] at h
  obtain ⟨definition, hdefinition, value, hvalue, heq⟩ := h
  obtain rfl := Option.some.inj heq
  obtain ⟨hdefinition, hdefinitionClean⟩ :=
    fieldRecovers_required recovers_text? _ _ (hrange _) hdefinition
  obtain ⟨hvalue, hvalueClean⟩ := fieldRecovers_required hresponse _ _ (hrange _) hvalue
  simp only [List.forall_mem_cons]
  refine ⟨⟨hdefinitionClean, hvalueClean, List.forall_mem_nil _⟩, fun field' h' => ?_⟩
  obtain ⟨hdefinition', hvalue', _⟩ := h'
  simp [hdefinition', hvalue', hdefinition, hvalue]

/-- Solutions are recovered, if responses are, however deep they stand. -/
theorem recovers {response? : Nat → Json → Option R} {response : R → Json}
    (hresponse : ∀ depth, Recovers (response? depth) response) :
    Recovers (decode? response?) (encode response) := by
  refine recovers_record
    (fun s => [("answers", some (.array (s.answers.map (encodeSolution response)))),
      ("unmatchedResponse", some (response s.unmatched))])
    (fun s => by simp [encode, encodeSolution, record, member, member?]) (fun _ => rfl) (by decide)
    (fun _ => rfl) fun field s hrange h => ?_
  simp only [Option.bind_eq_bind, Option.bind_eq_some_iff] at h
  obtain ⟨answers, hanswers, unmatched, hunmatched, heq⟩ := h
  obtain rfl := Option.some.inj heq
  obtain ⟨hanswers, hanswersClean⟩ := fieldRecovers_required
    (recovers_list? (recovers_decodeSolution? (hresponse 3))) _ _ (hrange _) hanswers
  obtain ⟨hunmatched, hunmatchedClean⟩ :=
    fieldRecovers_required (hresponse 1) _ _ (hrange _) hunmatched
  simp only [List.forall_mem_cons]
  refine ⟨⟨hanswersClean, hunmatchedClean, List.forall_mem_nil _⟩, fun field' h' => ?_⟩
  obtain ⟨hanswers', hunmatched', _⟩ := h'
  simp [hanswers', hunmatched', hanswers, hunmatched]

end Solutions

/-! ## Texts -/

/-- An envelope has no numbers. -/
theorem Envelope.parse?_text (printFloat : Float → String) (e : Envelope) :
    parse? (e.encode.text printFloat) = some e := by
  have hprint : e.encode.PrintedBy printFloat := nofun
  rw [parse?, Json.parse?_text (e.clean_encode.legible hprint)]
  exact e.decode?_encode

/-- Answers, solutions and envelopes that were decoded are decoded again from the text of their
encodings, and an answer from an envelope around its text, if doubles are printed as numbers that
read back. -/
theorem decoded_again (printFloat : Float → String) :
    (∀ text a, Answer.parse? text = some a → a.encode.PrintedBy printFloat →
      Answer.parse? (a.encode.text printFloat) = some a) ∧
    (∀ text s, Solutions.parse? Response.decode? text = some s →
      (s.encode Response.encode).PrintedBy printFloat →
      Solutions.parse? Response.decode? ((s.encode Response.encode).text printFloat) = some s) ∧
    (∀ text e, Envelope.parse? text = some e →
      Envelope.parse? (e.encode.text printFloat) = some e) ∧
    ∀ text a, Answer.parse? text = some a → a.encode.PrintedBy printFloat →
      let sealed : Envelope := ⟨Envelope.drawingKind, a.encode.text printFloat⟩
      ∃ e, Envelope.parse? (sealed.encode.text printFloat) = some e ∧ e.open? = .ok a := by
  have hanswer : ∀ text a, Answer.parse? text = some a → a.encode.PrintedBy printFloat →
      Answer.parse? (a.encode.text printFloat) = some a :=
    fun _ _ h hprint => Answer.recovers.parse? h hprint
  refine ⟨hanswer, fun _ _ h hprint => (Solutions.recovers Response.recovers).parse? h hprint,
    fun _ e _ => e.parse?_text printFloat, fun text a h hprint =>
      ⟨_, Envelope.parse?_text printFloat _, ?_⟩⟩
  rw [Envelope.open?, if_pos rfl, hanswer text a h hprint]

/-- An answer with an empty list of maxima and a member that does not matter, solutions with parts
in array form, and an envelope in array form. -/
theorem decoded_again_flat_curve :
    let printFloat : Float → String := fun x => if x == 1 then "1.0" else "0.0"
    let answerText :=
      "\x7b\"curves\":[\x7b\"maxima\":[],\"pts\":[[null,1,0]]\x7d],\"other\":true\x7d"
    let a : Answer := ⟨0, 0, [⟨[⟨none, 1, 0⟩], some [], none, none, none, none, none⟩], none⟩
    let solutionsText :=
      "\x7b\"unmatchedResponse\":[false,[\"again\",null]],\"answers\":[]\x7d"
    let s : Solutions Response :=
      ⟨[], ⟨false, some (.array [.ofString "again", .null])⟩⟩
    let envelopeText := "[\"graphChoice\",\"\\u007b\\u007d\"]"
    let e : Envelope := ⟨"graphChoice", "\x7b\x7d"⟩
    (Answer.parse? answerText = some a ∧ a.encode.PrintedBy printFloat ∧
      Answer.parse? (a.encode.text printFloat) = some a) ∧
    (Solutions.parse? Response.decode? solutionsText = some s ∧
      (s.encode Response.encode).PrintedBy printFloat ∧
      Solutions.parse? Response.decode? ((s.encode Response.encode).text printFloat) = some s) ∧
    (Envelope.parse? envelopeText = some e ∧
      Envelope.parse? (e.encode.text printFloat) = some e) ∧
    ∃ e, Envelope.parse? ((Envelope.mk Envelope.drawingKind
      (a.encode.text printFloat)).encode.text printFloat) = some e ∧ e.open? = .ok a := by
  intro printFloat answerText a solutionsText s envelopeText e
  obtain ⟨hanswer, hsolutions, henvelope, hsealed⟩ := decoded_again printFloat
  have ha : Answer.parse? answerText = some a := by
    have hvalue : Json.parse? answerText = some (.object
        [(some "curves", .array [.object [(some "maxima", .array []),
          (some "pts", .array [.array [.null, .ofInt 1, .ofInt 0]])]]),
        (some "other", .bool true)]) := by cbv
    rw [Answer.parse?, hvalue]
    rfl
  have hs : Solutions.parse? Response.decode? solutionsText = some s := by
    have hvalue : Json.parse? solutionsText = some (.object
        [(some "unmatchedResponse", .array [.bool false, .array [.ofString "again", .null]]),
        (some "answers", .array [])]) := by cbv
    rw [Solutions.parse?, hvalue]
    rfl
  have he : Envelope.parse? envelopeText = some e := by cbv
  have hprint : a.encode.PrintedBy printFloat := by
    have hone : Numeral.Spells "1.0".toList (.float 1) := by
      have hvalue : Numeral.scaleDown (Float.ofNat 10) 1 = 1 := by
        rw [Numeral.scaleDown, if_pos (by decide)]
        decide +kernel
      exact ⟨⟨false, ['1'], ['0'], none⟩, rfl, (congrArg (some <| JsonNumber.float ·) hvalue :)⟩
    have hzero : Numeral.Spells "0.0".toList (.float 0) := by
      have hvalue : Numeral.scaleDown (Float.ofNat 0) 1 = 0 := by
        rw [Numeral.scaleDown, if_pos (by decide)]
        decide +kernel
      exact ⟨⟨false, ['0'], ['0'], none⟩, rfl, (congrArg (some <| JsonNumber.float ·) hvalue :)⟩
    have hfloats : a.encode.floats = [0, 0, 1, 0] := rfl
    intro x hx _
    rw [hfloats] at hx
    simp only [List.mem_cons, List.not_mem_nil, or_false] at hx
    have hprintOne : printFloat 1 = "1.0" := if_pos (by decide +kernel)
    have hprintZero : printFloat 0 = "0.0" := if_neg (by decide +kernel)
    rcases hx with rfl | rfl | rfl | rfl
    · exact hprintZero ▸ hzero
    · exact hprintZero ▸ hzero
    · exact hprintOne ▸ hone
    · exact hprintZero ▸ hzero
  have hprintSolutions : (s.encode Response.encode).PrintedBy printFloat := fun _ hx =>
    absurd hx List.not_mem_nil
  exact ⟨⟨ha, hprint, hanswer answerText a ha hprint⟩,
    ⟨hs, hprintSolutions, hsolutions solutionsText s hs hprintSolutions⟩,
    ⟨he, henvelope envelopeText e he⟩, hsealed answerText a ha hprint⟩

end CurveSketch
