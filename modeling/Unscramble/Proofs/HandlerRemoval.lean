/-
Injected handlers.  The ranges that go are those for runtime exceptions and those for everything whose handler also
serves runtime exceptions or only reports.  With them go exactly the reports at handlers that serve no range any longer:
where labels are apart, a report ends before the next label, so that no two of them overlap and each can be cut out
of the code for itself.
-/
import Mathlib.Data.List.Nodup
import Mathlib.Data.List.TakeWhile
import Unscramble.Proofs.Labels
import Unscramble.Proofs.Results

namespace Unscramble

namespace Handlers

variable {m m' : MethodDecl} {code : List Instr} {place : Nat} {span : Span}

section Reports

/-- Code that reports an exception: behind some markers comes a body without labels that starts and ends with an
instruction and whose instructions, with the lines among them left out, have the given codes. -/
structure IsReport (shape : List Opcode) (front body : List Instr) : Prop where
  front_markers : ∀ instr ∈ front, instr.isMarker = true
  no_label : ∀ instr ∈ body, instr.label? = none
  starts : ∃ instr, body.head? = some instr ∧ instr.isMarker = false
  ends : ∃ instr, body.getLast? = some instr ∧ instr.isMarker = false
  shape_eq : body.filterMap Instr.opcode? = shape

/-- A report stands from a place on, with its body at the span. -/
def ShapeAt (shape : List Opcode) (code : List Instr) (place : Nat) (span : Span) : Prop :=
  ∃ before front body after, code = before ++ front ++ body ++ after ∧ IsReport shape front body ∧
    before.length = place ∧ place + front.length = span.first ∧ span.first + body.length = span.last + 1

/-- A report of either form stands from a place on. -/
def ReportAt (code : List Instr) (place : Nat) (span : Span) : Prop :=
  ShapeAt shortReport code place span ∨ ShapeAt longReport code place span

/-- A report stands at a label. -/
def Reports (code : List Instr) (handler : Label) (span : Span) : Prop :=
  ∃ place, code[place]? = some (.label handler) ∧ ReportAt code place span

theorem dropWhile_unlined (part : List (Instr × Nat)) :
    (part.filter fun (instr, _) => match instr with | .line _ => false | _ => true).dropWhile
      (fun (instr, _) => BlockGraph.isLabel instr) =
    (part.dropWhile fun (instr, _) => instr.isMarker).filter
      fun (instr, _) => match instr with | .line _ => false | _ => true := by
  induction part with
  | nil => rfl
  | cons first rest ih =>
      obtain ⟨instr, index⟩ := first
      cases instr with
      | label l => exact ih
      | line number => exact ih
      | _ => rfl

theorem filterMap_unlined {β : Type} {read : Instr × Nat → Option β}
    (hread : ∀ number index, read (.line number, index) = none) (part : List (Instr × Nat)) :
    (((part.filter fun (instr, _) => match instr with | .line _ => false | _ => true).takeWhile
      fun (instr, _) => !instr.isMarker).filterMap read) =
    (part.takeWhile fun (instr, _) => !BlockGraph.isLabel instr).filterMap read := by
  induction part with
  | nil => rfl
  | cons first rest ih =>
      obtain ⟨instr, index⟩ := first
      cases instr with
      | label l => rfl
      | line number =>
          rw [List.takeWhile_cons_of_pos (by rfl), List.filterMap_cons_none (hread number index)]
          exact ih
      | _ =>
          rw [List.takeWhile_cons_of_pos (by rfl), List.filter_cons_of_pos (by rfl),
            List.takeWhile_cons_of_pos (by rfl), List.filterMap_cons, List.filterMap_cons, ih]

/-- An instruction with its place, as a body lists it. -/
def placed? : Instr × Nat → Option (Nat × Opcode)
  | (instr, index) => instr.opcode?.map (index, ·)

/-- Lines can be left out after the body has been cut out as well as before. -/
theorem bodyAt_eq (code : List Instr) (index : Nat) : bodyAt code index =
    ((((code.zipIdx.drop index).dropWhile fun (instr, _) => instr.isMarker).takeWhile
      fun (instr, _) => !BlockGraph.isLabel instr).filterMap placed?) := by
  rw [← filterMap_unlined (fun _ _ => rfl), ← dropWhile_unlined]
  rfl

theorem exists_placed (index : Nat) {instr : Instr} (h : instr.isMarker = false) :
    ∃ op, placed? (instr, index) = some (index, op) := by
  obtain ⟨op, hop⟩ := Option.isSome_iff_exists.1 (Option.isNone_eq_false_iff.1 h)
  exact ⟨op, by rw [placed?, hop, Option.map_some]⟩

theorem placed?_eq_some {x : Instr × Nat} {index : Nat} {op : Opcode} :
    placed? x = some (index, op) ↔ x.2 = index ∧ x.1.opcode? = some op := by
  rw [placed?, Option.map_eq_some_iff]
  simp [and_comm]

/-- The codes that a body lists are those of its instructions. -/
theorem map_snd_placed (part : List (Instr × Nat)) :
    (part.filterMap placed?).map Prod.snd = (part.map Prod.fst).filterMap Instr.opcode? := by
  rw [List.map_filterMap, List.filterMap_map]
  refine List.filterMap_congr ?_
  rintro ⟨instr, index⟩ -
  cases hop : instr.opcode? <;> simp [placed?, hop]

theorem matchShape_eq_some {body : List (Nat × Opcode)} {shape : List Opcode} :
    matchShape body shape = some span ↔ (body.take shape.length).map Prod.snd = shape ∧
      (body.take shape.length).head?.map Prod.fst = some span.first ∧
      (body.take shape.length).getLast?.map Prod.fst = some span.last := by
  obtain ⟨first, last⟩ := span
  simp only [matchShape]
  generalize body.take shape.length = covered
  split
  · next hshape =>
      rcases hfirst : covered.head? with _ | ⟨a, op⟩ <;> rcases hlast : covered.getLast? with _ | ⟨b, op'⟩ <;>
        simp [hshape]
  · next hshape => simp [hshape]

theorem matchShape_of_shapeAt {shape : List Opcode} (h : ShapeAt shape code place span) :
    matchShape (bodyAt code place) shape = some span := by
  obtain ⟨before, front, body, after, rfl, hreport, rfl, hfirst, hlast⟩ := h
  obtain ⟨start, hhead, hstart⟩ := hreport.starts
  obtain ⟨stop, hgetLast, hstop⟩ := hreport.ends
  obtain ⟨tail, rfl⟩ := List.head?_eq_some_iff.1 hhead
  obtain ⟨init, hinit⟩ := List.getLast?_eq_some_iff.1 hgetLast
  obtain ⟨more, hbody⟩ : ∃ more, bodyAt (before ++ front ++ start :: tail ++ after) before.length =
      ((start :: tail).zipIdx span.first).filterMap placed? ++ more := by
    have hmarkers : ∀ x ∈ front.zipIdx before.length, x.1.isMarker = true := fun x hx =>
      hreport.front_markers x.1 (List.fst_mem_of_mem_zipIdx hx)
    have hinside : ∀ x ∈ (start :: tail).zipIdx span.first, (!BlockGraph.isLabel x.1) = true := by
      rintro ⟨instr, index⟩ hx
      have hnone := hreport.no_label instr (List.fst_mem_of_mem_zipIdx hx)
      cases instr with
      | label l => cases hnone
      | _ => rfl
    rw [bodyAt_eq, List.append_assoc, List.append_assoc, List.zipIdx_append, List.drop_left' (by simp),
      Nat.zero_add, List.zipIdx_append, hfirst, List.dropWhile_append_of_pos hmarkers, List.zipIdx_append,
      List.zipIdx_cons, List.cons_append, List.dropWhile_cons_of_neg (by simp [hstart]), ← List.cons_append,
      ← List.zipIdx_cons, List.takeWhile_append_of_pos hinside, List.filterMap_append]
    exact ⟨_, rfl⟩
  have hcodes : (((start :: tail).zipIdx span.first).filterMap placed?).map Prod.snd = shape := by
    rw [map_snd_placed, List.zipIdx_map_fst, hreport.shape_eq]
  have hcovered : (bodyAt (before ++ front ++ start :: tail ++ after) before.length).take shape.length =
      ((start :: tail).zipIdx span.first).filterMap placed? := by
    rw [hbody, List.take_left' (by rw [← hcodes, List.length_map])]
  refine matchShape_eq_some.2 ?_
  rw [hcovered]
  refine ⟨hcodes, ?_, ?_⟩
  · obtain ⟨op, hop⟩ := exists_placed span.first hstart
    rw [List.zipIdx_cons, List.filterMap_cons_some hop, List.head?_cons, Option.map_some]
  · obtain ⟨op, hop⟩ := exists_placed (span.first + init.length) hstop
    rw [hinit, List.length_append, List.length_singleton] at hlast
    rw [hinit, List.zipIdx_append, List.filterMap_append, List.zipIdx_singleton, List.filterMap_cons_some hop,
      List.filterMap_nil, List.getLast?_concat, Option.map_some, show span.first + init.length = span.last by omega]

/-- What stands behind a part of a list with indexes has the length of the part as its index. -/
theorem index_of_zipIdx_eq {part rest : List (Instr × Nat)} {x : Instr × Nat}
    (h : code.zipIdx = part ++ x :: rest) : x.2 = part.length := by
  have hplace : code.zipIdx[part.length]? = some x := by
    rw [h, List.getElem?_append_right (Nat.le_refl _), Nat.sub_self, List.getElem?_cons_zero]
  rw [List.getElem?_zipIdx] at hplace
  obtain ⟨instr, -, rfl⟩ := Option.map_eq_some_iff.1 hplace
  exact Nat.zero_add _

/-- A body is cut out of the code behind the markers at its place. -/
theorem exists_parts (code : List Instr) (place : Nat) : ∃ front part rest,
    code.zipIdx = code.zipIdx.take place ++ front ++ part ++ rest ∧ (∀ x ∈ front, x.1.isMarker = true) ∧
      (∀ x ∈ part, x.1.label? = none) ∧ (∀ x, part.head? = some x → x.1.isMarker = false) ∧
      bodyAt code place = part.filterMap placed? := by
  have hbody := bodyAt_eq code place
  generalize hstart : code.zipIdx.drop place = start at hbody
  generalize hbehind : (start.dropWhile fun (instr, _) => instr.isMarker) = behind at hbody
  refine ⟨start.takeWhile fun (instr, _) => instr.isMarker,
    behind.takeWhile fun (instr, _) => !BlockGraph.isLabel instr,
    behind.dropWhile fun (instr, _) => !BlockGraph.isLabel instr, ?_, ?_, ?_, ?_, hbody⟩
  · rw [List.append_assoc, List.takeWhile_append_dropWhile, List.append_assoc, ← hbehind,
      List.takeWhile_append_dropWhile, ← hstart, List.take_append_drop]
  · intro x hx
    have hmarker := List.mem_takeWhile_imp hx
    exact hmarker
  · rintro ⟨instr, index⟩ hx
    have hinside := List.mem_takeWhile_imp hx
    cases instr with
    | label l => cases hinside
    | _ => rfl
  · intro x hx
    obtain ⟨tail, htail⟩ := List.head?_eq_some_iff.1 hx
    have hfirst : behind.head? = some x := by
      rw [← List.takeWhile_append_dropWhile (p := fun (instr, _) => !BlockGraph.isLabel instr) (l := behind), htail]
      rfl
    have hnot := List.head?_dropWhile_not (fun ((instr, _) : Instr × Nat) => instr.isMarker) start
    rw [hbehind, hfirst] at hnot
    exact hnot

/-- Where the instructions that are listed first end, the part of the code that lists them ends, too. -/
theorem exists_covered {part : List (Instr × Nat)} {covered others : List (Nat × Opcode)} {last : Nat × Opcode}
    (h : part.filterMap placed? = covered ++ others) (hlast : covered.getLast? = some last) :
    ∃ inner stop more, part = inner ++ [stop] ++ more ∧ (inner ++ [stop]).filterMap placed? = covered ∧
      placed? stop = some last := by
  obtain ⟨init, rfl⟩ := List.getLast?_eq_some_iff.1 hlast
  rw [List.append_assoc] at h
  obtain ⟨listed, others, rfl, rfl, hothers⟩ := List.filterMap_eq_append_iff.1 h
  obtain ⟨lines, stop, more, rfl, hlines, hstop, -⟩ := List.filterMap_eq_cons_iff.1 hothers
  refine ⟨listed ++ lines, stop, more, by simp, ?_, hstop⟩
  rw [List.filterMap_append, List.filterMap_append, List.filterMap_eq_nil_iff.2 hlines, List.append_nil,
    List.filterMap_cons_some hstop, List.filterMap_nil]

theorem shapeAt_of_matchShape {shape : List Opcode} (h : matchShape (bodyAt code place) shape = some span) :
    ShapeAt shape code place span := by
  obtain ⟨hcodes, hhead, hlast⟩ := matchShape_eq_some.1 h
  obtain ⟨⟨last, op⟩, hgetLast, hspan⟩ := Option.map_eq_some_iff.1 hlast
  obtain ⟨front, part, rest, hcode, hmarkers, hinside, hstart, hbody⟩ := exists_parts code place
  rw [← List.take_append_drop shape.length (bodyAt code place)] at hbody
  obtain ⟨inner, stop, more, rfl, hcovered, hstop⟩ := exists_covered hbody.symm hgetLast
  obtain ⟨start, tail, hbegin⟩ : ∃ start tail, inner ++ [stop] = start :: tail := List.exists_cons_of_ne_nil (by simp)
  have hwhole : code.zipIdx = code.zipIdx.take place ++ front ++ (inner ++ [stop]) ++ (more ++ rest) := by
    simpa using hcode
  have hreal : start.1.isMarker = false := by
    refine hstart start ?_
    rw [hbegin]
    rfl
  have hfirst : start.2 = (code.zipIdx.take place ++ front).length := by
    have hat : code.zipIdx = (code.zipIdx.take place ++ front) ++ start :: (tail ++ (more ++ rest)) := by
      rw [← List.cons_append, ← hbegin, ← List.append_assoc, ← hwhole]
    exact index_of_zipIdx_eq hat
  have hstops : stop.2 = (code.zipIdx.take place ++ front ++ inner).length := by
    have hat : code.zipIdx = (code.zipIdx.take place ++ front ++ inner) ++ stop :: (more ++ rest) := by
      simpa using hwhole
    exact index_of_zipIdx_eq hat
  have hspanFirst : start.2 = span.first := by
    obtain ⟨first, hplaced⟩ := exists_placed start.2 hreal
    rw [← hcovered, hbegin, List.filterMap_cons_some hplaced, List.head?_cons] at hhead
    exact Option.some.inj hhead
  obtain ⟨hlastIndex, hlastCode⟩ := placed?_eq_some.1 hstop
  have hplace : (code.zipIdx.take place).length = place := by
    have hlength := congrArg List.length hwhole
    simp only [List.length_append, List.length_take, List.length_singleton] at hlength ⊢
    omega
  refine ⟨(code.zipIdx.take place).map Prod.fst, front.map Prod.fst, (inner ++ [stop]).map Prod.fst,
    (more ++ rest).map Prod.fst, ?_, ⟨?_, ?_, ?_, ?_, ?_⟩, ?_, ?_, ?_⟩
  · rw [← List.map_append, ← List.map_append, ← List.map_append, ← hwhole, List.zipIdx_map_fst]
  · simpa using hmarkers
  · intro instr hinstr
    obtain ⟨x, hx, rfl⟩ := List.mem_map.1 hinstr
    exact hinside x (List.mem_append_left more hx)
  · exact ⟨start.1, by rw [hbegin]; rfl, hreal⟩
  · exact ⟨stop.1, by rw [List.map_append]; exact List.getLast?_concat, by rw [Instr.isMarker, hlastCode]; rfl⟩
  · rw [← map_snd_placed, hcovered, hcodes]
  · rw [List.length_map, hplace]
  · rw [List.length_map, ← hspanFirst, hfirst, List.length_append, hplace]
  · rw [List.length_map, ← hspanFirst, hfirst, ← hspan, ← hlastIndex, hstops]
    simp only [List.length_append, List.length_singleton]
    omega

theorem shapeAt_iff {shape : List Opcode} :
    matchShape (bodyAt code place) shape = some span ↔ ShapeAt shape code place span :=
  ⟨shapeAt_of_matchShape, matchShape_of_shapeAt⟩

/-- No body has both forms. -/
theorem matchShape_shortReport_of_long {body : List (Nat × Opcode)} (h : matchShape body longReport = some span) :
    matchShape body shortReport = none := by
  have hlong := (matchShape_eq_some.1 h).1
  refine Option.eq_none_iff_forall_ne_some.2 fun other hother => ?_
  have hshort := (matchShape_eq_some.1 hother).1
  have hprefix : longReport.take shortReport.length = shortReport := by
    rw [← hlong, ← List.map_take, List.take_take]
    exact hshort
  exact absurd hprefix (by decide)

theorem reportAt?_eq_some : reportAt? code place = some span ↔ ReportAt code place span := by
  rw [reportAt?, ReportAt, ← shapeAt_iff, ← shapeAt_iff]
  rcases hshort : matchShape (bodyAt code place) shortReport with _ | short
  · rcases hlong : matchShape (bodyAt code place) longReport with _ | long <;> simp [hshort, hlong]
  · have hnot : matchShape (bodyAt code place) longReport ≠ some span := fun hlong => by
      rw [matchShape_shortReport_of_long hlong] at hshort
      cases hshort
    simp [hshort, hnot]

end Reports

section Places

theorem ReportAt.exists_split (h : ReportAt code place span) : ∃ shape, ShapeAt shape code place span := by
  rcases h with h | h
  · exact ⟨shortReport, h⟩
  · exact ⟨longReport, h⟩

/-- A report lies behind its place. -/
theorem ReportAt.bounds (h : ReportAt code place span) :
    place ≤ span.first ∧ span.first ≤ span.last ∧ span.last < code.length := by
  obtain ⟨shape, before, front, body, after, rfl, hreport, rfl, hfirst, hlast⟩ := h.exists_split
  obtain ⟨start, hstart, -⟩ := hreport.starts
  obtain ⟨tail, rfl⟩ := List.head?_eq_some_iff.1 hstart
  simp only [List.length_append, List.length_cons] at hlast ⊢
  omega

/-- Up to its end, a report has labels in front of its body only, and there are no instructions among them. -/
theorem ReportAt.of_label (h : ReportAt code place span) {index : Nat} {l : Label} (hplace : place ≤ index)
    (hlast : index ≤ span.last) (hlabel : code[index]? = some (.label l)) :
    ∀ (k : Nat) (instr : Instr), place ≤ k → k < index → code[k]? = some instr → instr.isMarker = true := by
  obtain ⟨shape, before, front, body, after, rfl, hreport, rfl, hfirst, hspan⟩ := h.exists_split
  rw [List.append_assoc, List.append_assoc, List.getElem?_append_right hplace] at hlabel
  intro k instr hk hlt hinstr
  rw [List.append_assoc, List.append_assoc, List.getElem?_append_right hk] at hinstr
  rcases Nat.lt_or_ge (index - before.length) front.length with hinside | hbehind
  · rw [List.getElem?_append_left (by omega)] at hinstr
    exact hreport.front_markers instr (List.mem_of_getElem? hinstr)
  · rw [List.getElem?_append_right hbehind, List.getElem?_append_left (by omega)] at hlabel
    cases hreport.no_label _ (List.mem_of_getElem? hlabel)

/-- Where labels are apart, a report at a label ends before the next one. -/
theorem ReportAt.last_lt (hapart : LabelsApart code) (h : ReportAt code place span) {l l' : Label} {later : Nat}
    (hlabel : code[place]? = some (.label l)) (hlater : code[later]? = some (.label l')) (hlt : place < later) :
    span.last < later := by
  by_contra hle
  obtain ⟨k, instr, hk, hkl, hinstr, hreal⟩ := hapart place later l l' hlt hlabel hlater
  have hmarker := h.of_label (Nat.le_of_lt hlt) (Nat.le_of_not_lt hle) hlater k instr (Nat.le_of_lt hk) hkl hinstr
  exact absurd (hreal.symm.trans hmarker) nofun

/-- Two different reports at labels lie one behind the other. -/
theorem Reports.disjoint (hapart : LabelsApart code) {l l' : Label} {other : Span} (h : Reports code l span)
    (hother : Reports code l' other) (hne : span ≠ other) : span.last < other.first ∨ other.last < span.first := by
  obtain ⟨place, hlabel, hreport⟩ := h
  obtain ⟨place', hlabel', hreport'⟩ := hother
  have := hreport.bounds
  have := hreport'.bounds
  rcases Nat.lt_trichotomy place place' with hlt | rfl | hgt
  · have := hreport.last_lt hapart hlabel hlabel' hlt
    exact .inl (by omega)
  · have hsame := (reportAt?_eq_some.2 hreport).symm.trans (reportAt?_eq_some.2 hreport')
    exact absurd (Option.some.inj hsame) hne
  · have := hreport'.last_lt hapart hlabel' hlabel hgt
    exact .inr (by omega)

/-- A report belongs to one label. -/
theorem Reports.label_unique (hapart : LabelsApart code) {l l' : Label} (h : Reports code l span)
    (h' : Reports code l' span) : l = l' := by
  obtain ⟨place, hlabel, hreport⟩ := h
  obtain ⟨place', hlabel', hreport'⟩ := h'
  have := hreport.bounds
  have := hreport'.bounds
  rcases Nat.lt_trichotomy place place' with hlt | rfl | hgt
  · have := hreport.last_lt hapart hlabel hlabel' hlt
    omega
  · exact Instr.label.inj (Option.some.inj (hlabel.symm.trans hlabel'))
  · have := hreport'.last_lt hapart hlabel' hlabel hgt
    omega

end Places

section Deletion

/-- The code from an index on without what lies in the ranges, except for labels. -/
def withoutSpans (spans : List Span) (start : Nat) (code : List Instr) : List Instr :=
  ((code.zipIdx start).filter fun (instr, index) =>
    BlockGraph.isLabel instr || !spans.any fun span => span.first ≤ index && index ≤ span.last).map Prod.fst

variable {spans : List Span} {start : Nat}

theorem withoutSpans_append (code rest : List Instr) : withoutSpans spans start (code ++ rest) =
    withoutSpans spans start code ++ withoutSpans spans (start + code.length) rest := by
  rw [withoutSpans, List.zipIdx_append, List.filter_append, List.map_append]
  rfl

/-- What lies in no range stays. -/
theorem withoutSpans_of_outside (h : ∀ span ∈ spans, start + code.length ≤ span.first ∨ span.last < start) :
    withoutSpans spans start code = code := by
  rw [withoutSpans, List.filter_eq_self.2, List.zipIdx_map_fst]
  rintro ⟨instr, index⟩ hmem
  have := List.le_snd_of_mem_zipIdx hmem
  have := List.snd_lt_add_of_mem_zipIdx hmem
  have hnone : (spans.any fun span => span.first ≤ index && index ≤ span.last) = false := by
    refine List.any_eq_false.2 fun span hspan => ?_
    have := h span hspan
    simp only [Bool.and_eq_true, decide_eq_true_eq]
    omega
  simp [hnone]

/-- What lies in a range goes, except for labels. -/
theorem withoutSpans_of_inside (hmem : span ∈ spans) (hfirst : span.first ≤ start)
    (hlast : start + code.length ≤ span.last + 1) :
    withoutSpans spans start code = code.filter BlockGraph.isLabel := by
  have hcode : code.filter BlockGraph.isLabel =
      ((code.zipIdx start).filter fun (instr, _) => BlockGraph.isLabel instr).map Prod.fst := by
    conv_lhs => rw [← List.zipIdx_map_fst start code, List.filter_map]
    rfl
  rw [hcode, withoutSpans]
  refine congrArg _ (List.filter_congr ?_)
  rintro ⟨instr, index⟩ hindex
  have := List.le_snd_of_mem_zipIdx hindex
  have := List.snd_lt_add_of_mem_zipIdx hindex
  have hany : (spans.any fun span => span.first ≤ index && index ≤ span.last) = true := by
    refine List.any_eq_true.2 ⟨span, hmem, ?_⟩
    simp only [Bool.and_eq_true, decide_eq_true_eq]
    omega
  simp [hany]

theorem labelsIn_withoutSpans (spans : List Span) (start : Nat) (code : List Instr) :
    labelsIn (withoutSpans spans start code) = labelsIn code := by
  rw [withoutSpans, labelsIn, List.filterMap_map, List.filterMap_filter, labelsIn]
  conv_rhs => rw [← List.zipIdx_map_fst start code, List.filterMap_map]
  refine List.filterMap_congr ?_
  rintro ⟨instr, index⟩ -
  cases instr <;> simp [BlockGraph.isLabel, Instr.label?]

/-- A range that ends before the code deletes nothing of it. -/
theorem withoutSpans_cons_of_lt (h : span.last < start) :
    withoutSpans (span :: spans) start code = withoutSpans spans start code := by
  refine congrArg _ (List.filter_congr ?_)
  rintro ⟨instr, index⟩ hindex
  have := List.le_snd_of_mem_zipIdx hindex
  have hnot : (decide (span.first ≤ index) && decide (index ≤ span.last)) = false := by
    rw [Bool.and_eq_false_iff, decide_eq_false_iff_not, decide_eq_false_iff_not]
    omega
  simp only [List.any_cons, hnot, Bool.false_or]

theorem deleteSpan_append {front body after : List Instr} (hfront : front.length = span.first)
    (hbody : (front ++ body).length = span.last + 1) :
    deleteSpan span (front ++ body ++ after) = front ++ body.filter BlockGraph.isLabel ++ after := by
  have hmiddle : span.last + 1 - span.first = body.length := by
    rw [List.length_append] at hbody
    omega
  rw [deleteSpan, List.drop_left' hbody, hmiddle, List.append_assoc front body after, List.take_left' hfront,
    List.drop_left' hfront, List.take_left' rfl]

/-- Deleting ranges from the last one to the first deletes what lies in any of them. -/
theorem foldr_deleteSpan (hsorted : spans.Pairwise fun a b => a.last < b.first)
    (hinside : ∀ span ∈ spans, span.first ≤ span.last ∧ span.last < code.length) :
    spans.foldr deleteSpan code = withoutSpans spans 0 code := by
  induction spans with
  | nil => exact (withoutSpans_of_outside fun _ h => absurd h List.not_mem_nil).symm
  | cons span rest ih =>
      obtain ⟨hspan, hrest⟩ := List.forall_mem_cons.1 hinside
      obtain ⟨hlater, hsorted⟩ := List.pairwise_cons.1 hsorted
      obtain ⟨front, body, after, rfl, hfront, hbody⟩ : ∃ front body after, code = front ++ body ++ after ∧
          front.length = span.first ∧ (front ++ body).length = span.last + 1 := by
        refine ⟨(code.take (span.last + 1)).take span.first, (code.take (span.last + 1)).drop span.first,
          code.drop (span.last + 1), ?_, ?_, ?_⟩
        · rw [List.take_append_drop, List.take_append_drop]
        · rw [List.length_take, List.length_take]
          omega
        · rw [List.take_append_drop, List.length_take]
          omega
      -- The later ranges spare what stands up to the end of this one.
      have hkept : withoutSpans rest 0 (front ++ body) = front ++ body :=
        withoutSpans_of_outside fun other hother => by have := hlater other hother; omega
      have hfrontKept : withoutSpans (span :: rest) 0 front = front := by
        refine withoutSpans_of_outside fun other hother => ?_
        rcases List.mem_cons.1 hother with rfl | hother
        · omega
        · have := hlater other hother
          omega
      have hbodyGone : withoutSpans (span :: rest) front.length body = body.filter BlockGraph.isLabel := by
        refine withoutSpans_of_inside List.mem_cons_self (by omega) ?_
        rw [← hbody, List.length_append]
      rw [List.foldr_cons, ih hsorted hrest, withoutSpans_append, hkept, deleteSpan_append hfront hbody,
        withoutSpans_append, withoutSpans_append, hfrontKept, Nat.zero_add, Nat.zero_add, hbodyGone,
        withoutSpans_cons_of_lt (by omega)]

end Deletion

section Ranges

/-- A range that is injected: it is for runtime exceptions, or it is for everything and its handler is one for runtime
exceptions, too, or only reports. -/
def IsRemoved (m : MethodDecl) (block : TryBlock) : Prop :=
  block.catchType = some runtimeException ∨ block.catchType = none ∧
    ((∃ other ∈ m.tries, other.catchType = some runtimeException ∧ other.handler = block.handler) ∨
      ∃ span, Reports m.code block.handler span)

/-- A handler of a range that goes which is the handler of none that stays. -/
def Orphaned (m : MethodDecl) (handler : Label) : Prop :=
  (∃ block ∈ m.tries, IsRemoved m block ∧ block.handler = handler) ∧
    ∀ block ∈ m.tries, ¬ IsRemoved m block → block.handler ≠ handler

/-- The report at a handler, where the handler stands. -/
def reportOf? (code : List Instr) (handler : Label) : Option Span :=
  (place? (labelPlaces code) handler).bind (reportAt? code)

theorem reportOf?_eq_some (honce : LabelsOnce code) {handler : Label} :
    reportOf? code handler = some span ↔ Reports code handler span := by
  simp only [reportOf?, Option.bind_eq_some_iff, honce.place?_eq_some_iff, reportAt?_eq_some, Reports]

/-- Whether a range for everything goes if some handlers go anyway. -/
def losesHandler (reports : Label → Bool) (removed : List Label) (block : TryBlock) : Bool :=
  block.catchType.isNone && (removed.contains block.handler || reports block.handler)

theorem splitCatchAlls_cons (reports : Label → Bool) (block : TryBlock) (rest : List TryBlock)
    (removed : List Label) : splitCatchAlls reports (block :: rest) removed =
      if losesHandler reports removed block then splitCatchAlls reports rest (block.handler :: removed)
      else (block :: (splitCatchAlls reports rest removed).1, (splitCatchAlls reports rest removed).2) :=
  rfl

/-- Ranges for everything go as the handlers say that are known from the start: a handler that comes to them later was
one of those or reports. -/
theorem splitCatchAlls_spec (reports : Label → Bool) (tries : List TryBlock) (removed : List Label) :
    (splitCatchAlls reports tries removed).1 = tries.filter (!losesHandler reports removed ·) ∧
      ∀ l, l ∈ (splitCatchAlls reports tries removed).2 ↔
        l ∈ removed ∨ ∃ block ∈ tries, losesHandler reports removed block = true ∧ block.handler = l := by
  induction tries generalizing removed with
  | nil => simp [splitCatchAlls]
  | cons block rest ih =>
      cases hgoes : losesHandler reports removed block with
      | true =>
          have hsame : losesHandler reports (block.handler :: removed) = losesHandler reports removed := by
            funext other
            obtain ⟨-, hhandler⟩ := Bool.and_eq_true_iff.1 hgoes
            rw [losesHandler, losesHandler, List.contains_cons]
            cases hother : other.handler == block.handler with
            | false => rfl
            | true => rw [eq_of_beq hother, hhandler, Bool.true_or, Bool.true_or]
          obtain ⟨hkept, hremoved⟩ := ih (block.handler :: removed)
          rw [hsame] at hkept
          simp only [hsame] at hremoved
          rw [splitCatchAlls_cons, if_pos hgoes, List.filter_cons_of_neg (by simp [hgoes])]
          refine ⟨hkept, fun l => ?_⟩
          rw [hremoved, List.mem_cons, List.exists_mem_cons_iff]
          constructor
          · rintro ((rfl | hl) | hl)
            · exact .inr (.inl ⟨hgoes, rfl⟩)
            · exact .inl hl
            · exact .inr (.inr hl)
          · rintro (hl | ⟨-, rfl⟩ | hl)
            · exact .inl (.inr hl)
            · exact .inl (.inl rfl)
            · exact .inr hl
      | false =>
          obtain ⟨hkept, hremoved⟩ := ih removed
          rw [splitCatchAlls_cons, if_neg (by simp [hgoes]), List.filter_cons_of_pos (by simp [hgoes])]
          refine ⟨congrArg (block :: ·) hkept, fun l => ?_⟩
          rw [hremoved, List.exists_mem_cons_iff, hgoes]
          simp

/-- Whether a handler only reports. -/
def onlyReports (code : List Instr) (handler : Label) : Bool :=
  (reportOf? code handler).isSome

def injectedHandlers (m : MethodDecl) : List Label :=
  (m.tries.filter isInjected).map TryBlock.handler

/-- Whether a range goes. -/
def isRemoved (m : MethodDecl) (block : TryBlock) : Bool :=
  isInjected block || losesHandler (onlyReports m.code) (injectedHandlers m) block

theorem isRemoved_iff (honce : LabelsOnce m.code) {block : TryBlock} : isRemoved m block = true ↔ IsRemoved m block := by
  simp only [isRemoved, isInjected, losesHandler, onlyReports, injectedHandlers, Bool.or_eq_true, Bool.and_eq_true,
    beq_iff_eq, Option.isNone_iff_eq_none, List.contains_iff_mem, List.mem_map, List.mem_filter,
    Option.isSome_iff_exists, reportOf?_eq_some honce, IsRemoved, and_assoc]

/-- The handlers that ranges lose, each of them once. -/
def orphans (m : MethodDecl) : List Label :=
  let removed := (splitCatchAlls (onlyReports m.code) (m.tries.filter (!isInjected ·)) (injectedHandlers m)).2
  let unused := removed.filter fun handler => !(m.tries.filter (!isRemoved m ·)).any (·.handler == handler)
  (unused.map Label.id).mergeSort.eraseDups.map Label.mk

theorem nodup_orphans (m : MethodDecl) : (orphans m).Nodup :=
  List.Nodup.map (fun _ _ h => Label.mk.inj h) (nodup_eraseDups _)

theorem mem_orphans (honce : LabelsOnce m.code) {handler : Label} : handler ∈ orphans m ↔ Orphaned m handler := by
  have hmem : handler ∈ orphans m ↔
      (handler ∈ injectedHandlers m ∨ ∃ block ∈ m.tries.filter (!isInjected ·),
        losesHandler (onlyReports m.code) (injectedHandlers m) block = true ∧ block.handler = handler) ∧
      ∀ block ∈ m.tries, ¬ IsRemoved m block → block.handler ≠ handler := by
    simp [orphans, (splitCatchAlls_spec _ _ _).2, ← isRemoved_iff honce]
  rw [hmem, Orphaned]
  refine and_congr_left fun _ => ?_
  simp only [injectedHandlers, List.mem_map, List.mem_filter, ← isRemoved_iff honce, isRemoved, Bool.or_eq_true]
  constructor
  · rintro (⟨block, ⟨hblock, hinjected⟩, rfl⟩ | ⟨block, ⟨hblock, -⟩, hloses, rfl⟩)
    · exact ⟨block, hblock, .inl hinjected, rfl⟩
    · exact ⟨block, hblock, .inr hloses, rfl⟩
  · rintro ⟨block, hblock, hremoved, rfl⟩
    cases hinjected : isInjected block with
    | true => exact .inl ⟨block, ⟨hblock, hinjected⟩, rfl⟩
    | false =>
        have hloses := hremoved.resolve_left (by rw [hinjected]; nofun)
        exact .inr ⟨block, ⟨hblock, by rw [hinjected]; rfl⟩, hloses, rfl⟩

theorem prune_eq (m : MethodDecl) : prune m =
    (orphans m).filterMapM (bodyToDelete m.code (labelPlaces m.code)) >>= fun spans =>
      .ok ({ m with
          tries := m.tries.filter (!isRemoved m ·)
          code := (spans.mergeSort fun a b => a.first ≤ b.first).foldr deleteSpan m.code },
        ⟨m.tries.length - (m.tries.filter (!isRemoved m ·)).length, spans.length⟩) := by
  have hkept : (splitCatchAlls (onlyReports m.code) (m.tries.filter (!isInjected ·)) (injectedHandlers m)).1 =
      m.tries.filter (!isRemoved m ·) := by
    rw [(splitCatchAlls_spec _ _ _).1, List.filter_filter]
    refine List.filter_congr fun block _ => ?_
    rw [isRemoved, Bool.not_or, Bool.and_comm]
  rw [orphans, ← hkept]
  simp only [prune, List.partition_eq_filter_filter]
  rfl

/-- A body can be deleted if a label or the end of the code follows it. -/
def Enclosed (code : List Instr) (span : Span) : Prop :=
  ∀ following, code[span.last + 1]? = some following → ∃ l, following = .label l

/-- What is to be deleted with a handler is the report there. -/
theorem bodyToDelete_eq_ok {handler : Label} {answer : Option Span}
    (h : bodyToDelete code (labelPlaces code) handler = .ok answer) : answer = reportOf? code handler := by
  unfold bodyToDelete at h
  split at h
  · cases h
  · next index hplace =>
      rw [reportOf?, hplace, Option.bind_some]
      split at h
      · next hreport => rw [hreport, Except.ok.inj h]
      · next span hreport => split at h <;> cases h <;> rw [hreport]

theorem bodyToDelete_eq_error (honce : LabelsOnce code) {handler : Label} :
    (∃ fault, bodyToDelete code (labelPlaces code) handler = .error fault) ↔
      .label handler ∉ code ∨ ∃ span, Reports code handler span ∧ ¬ Enclosed code span := by
  simp only [← reportOf?_eq_some honce]
  rcases hplace : place? (labelPlaces code) handler with _ | index
  · have hnot : .label handler ∉ code := fun hmem => by
      obtain ⟨place, hfound⟩ := exists_place? hmem
      exact absurd (hplace.symm.trans hfound) nofun
    exact ⟨fun _ => .inl hnot, fun _ => ⟨.notPlaced handler, by rw [bodyToDelete, hplace]⟩⟩
  · have hmem : .label handler ∈ code := List.mem_of_getElem? (place?_labelPlaces hplace)
    rw [or_iff_right (not_not_intro hmem)]
    rcases hreport : reportAt? code index with _ | span
    · simp [bodyToDelete, reportOf?, hplace, hreport]
    · rcases hnext : code[span.last + 1]? with _ | following
      · simp [bodyToDelete, reportOf?, hplace, hreport, hnext, Enclosed]
      · cases following <;> simp [bodyToDelete, reportOf?, hplace, hreport, hnext, Enclosed]

end Ranges

section Pruning

variable {removed : Removed}

/-- What removing the injected handlers makes of a method: the ranges that are not injected stay in order, and the code
loses, except for labels, what lies in the reports at orphaned handlers, one behind the other. -/
structure Prunes (m m' : MethodDecl) (removed : Removed) : Prop where
  rest_eq : m' = { m with tries := m'.tries, code := m'.code }
  tries_eq : ∃ keep : TryBlock → Bool,
    (∀ block, keep block = true ↔ ¬ IsRemoved m block) ∧ m'.tries = m.tries.filter keep
  ranges_eq : removed.ranges + m'.tries.length = m.tries.length
  code_eq : ∃ spans : List Span, spans.Pairwise (fun a b => a.last < b.first) ∧
    (∀ span, span ∈ spans ↔ ∃ handler, Orphaned m handler ∧ Reports m.code handler span) ∧
      removed.bodies = spans.length ∧ m'.code = withoutSpans spans 0 m.code
  labels_eq : labelsIn m'.code = labelsIn m.code

/-- The ranges to delete are the reports at orphaned handlers. -/
theorem prune_eq_ok (h : prune m = .ok (m', removed)) : ∃ spans sorted : List Span,
    spans = (orphans m).filterMap (reportOf? m.code) ∧ sorted.Perm spans ∧
      sorted.Pairwise (fun a b => a.first ≤ b.first) ∧ removed.bodies = sorted.length ∧
      removed.ranges = m.tries.length - (m.tries.filter (!isRemoved m ·)).length ∧
      m' = { m with tries := m.tries.filter (!isRemoved m ·), code := sorted.foldr deleteSpan m.code } := by
  rw [prune_eq] at h
  obtain ⟨spans, hspans, h⟩ := bind_eq_ok.1 h
  obtain ⟨rfl, rfl⟩ := Prod.mk.inj (Except.ok.inj h)
  obtain ⟨hanswers, hspans⟩ := filterMapM_eq_ok hspans
  have hperm := List.mergeSort_perm spans fun a b => a.first ≤ b.first
  refine ⟨spans, _, ?_, hperm, pairwise_mergeSort_key Span.first spans, hperm.length_eq.symm, rfl, rfl⟩
  rw [hspans]
  refine List.filterMap_congr fun handler hhandler => ?_
  obtain ⟨answer, hanswer⟩ := hanswers handler hhandler
  rw [hanswer, ← bodyToDelete_eq_ok hanswer]
  rfl

/-- Reports at different handlers are different, and they are one behind the other if they are sorted. -/
theorem pairwise_sorted (honce : LabelsOnce m.code) (hapart : LabelsApart m.code) {sorted : List Span}
    (hperm : sorted.Perm ((orphans m).filterMap (reportOf? m.code)))
    (hsorted : sorted.Pairwise fun a b => a.first ≤ b.first) : sorted.Pairwise fun a b => a.last < b.first := by
  have hnodup : sorted.Nodup := by
    refine hperm.nodup_iff.2 ((nodup_orphans m).filterMap fun l l' span h h' => ?_)
    exact ((reportOf?_eq_some honce).1 h).label_unique hapart ((reportOf?_eq_some honce).1 h')
  have hreports : ∀ span ∈ sorted, ∃ l, Reports m.code l span := by
    intro span hspan
    obtain ⟨l, -, hreport⟩ := List.mem_filterMap.1 (hperm.mem_iff.1 hspan)
    exact ⟨l, (reportOf?_eq_some honce).1 hreport⟩
  refine (hsorted.and hnodup).imp_of_mem fun {a b} ha hb hab => ?_
  obtain ⟨l, hl⟩ := hreports a ha
  obtain ⟨l', place, hlabel, hreport⟩ := hreports b hb
  have := hreport.bounds
  rcases hl.disjoint hapart ⟨place, hlabel, hreport⟩ hab.2 with hlt | hgt
  · exact hlt
  · omega

/-- Removing the injected handlers of a method whose labels are apart removes exactly those ranges and bodies; it fails
exactly if an orphaned handler does not stand in the code or a body to delete is not enclosed. -/
theorem prune_removes_injected (honce : LabelsOnce m.code) (hapart : LabelsApart m.code) :
    (∀ m' removed, prune m = .ok (m', removed) → Prunes m m' removed) ∧
      ((∃ fault, prune m = .error fault) ↔ ∃ handler, Orphaned m handler ∧
        (.label handler ∉ m.code ∨ ∃ span, Reports m.code handler span ∧ ¬ Enclosed m.code span)) := by
  constructor
  · intro m' removed h
    obtain ⟨spans, sorted, rfl, hperm, hsorted, hbodies, hranges, rfl⟩ := prune_eq_ok h
    have hmem : ∀ span, span ∈ sorted ↔ ∃ handler, Orphaned m handler ∧ Reports m.code handler span := by
      intro span
      simp only [hperm.mem_iff, List.mem_filterMap, mem_orphans honce, reportOf?_eq_some honce]
    have hcode : sorted.foldr deleteSpan m.code = withoutSpans sorted 0 m.code := by
      refine foldr_deleteSpan (pairwise_sorted honce hapart hperm hsorted) fun span hspan => ?_
      obtain ⟨handler, -, place, -, hreport⟩ := (hmem span).1 hspan
      exact hreport.bounds.2
    refine ⟨rfl, ⟨(!isRemoved m ·), fun block => ?_, rfl⟩, ?_,
      ⟨sorted, pairwise_sorted honce hapart hperm hsorted, hmem, hbodies, hcode⟩, ?_⟩
    · rw [← isRemoved_iff honce, Bool.not_eq_true, Bool.not_eq_true']
    · have := List.length_filter_le (!isRemoved m ·) m.tries
      rw [hranges]
      exact Nat.sub_add_cancel this
    · exact (congrArg labelsIn hcode).trans (labelsIn_withoutSpans ..)
  · simp only [← mem_orphans honce, ← bodyToDelete_eq_error honce]
    rw [prune_eq]
    constructor
    · rintro ⟨fault, hfault⟩
      by_contra hnone
      have hall : ∀ handler ∈ orphans m, ∃ answer,
          bodyToDelete m.code (labelPlaces m.code) handler = .ok answer := by
        intro handler hhandler
        cases hanswer : bodyToDelete m.code (labelPlaces m.code) handler with
        | ok answer => exact ⟨answer, rfl⟩
        | error reason => exact absurd ⟨handler, hhandler, reason, hanswer⟩ hnone
      obtain ⟨spans, hspans⟩ := exists_filterMapM_eq_ok hall
      rw [hspans] at hfault
      cases hfault
    · rintro ⟨handler, hhandler, reason, hreason⟩
      cases hspans : (orphans m).filterMapM (bodyToDelete m.code (labelPlaces m.code)) with
      | error fault => exact ⟨fault, rfl⟩
      | ok spans =>
          obtain ⟨answer, hanswer⟩ := (filterMapM_eq_ok hspans).1 handler hhandler
          exact absurd (hreason.symm.trans hanswer) nofun

/-- An instruction that calls a method for the report of an exception. -/
def reportCall (op : Opcode) (name : String) : Instr :=
  .method op ⟨"java/lang/StringBuilder", name, "()V"⟩ false

/-- A body that is guarded against all exceptions; whatever is thrown is reported. -/
def wrapping : MethodDecl where
  name := "run"
  descriptor := "()V"
  code :=
    [ .label ⟨0⟩, .simple Opcode.vreturn, .label ⟨1⟩, .line 7, .type Opcode.newObject "java/lang/StringBuilder",
      .simple Opcode.dup, reportCall Opcode.invokeSpecial "<init>", .ldc (.string "run"), .line 8,
      reportCall Opcode.invokeVirtual "append", reportCall Opcode.invokeVirtual "toString",
      reportCall Opcode.invokeStatic "report", .simple Opcode.athrow, .label ⟨2⟩, .simple Opcode.athrow ]
  tries :=
    [ ⟨⟨0⟩, ⟨1⟩, ⟨1⟩, some runtimeException⟩, ⟨⟨0⟩, ⟨1⟩, ⟨2⟩, some "java/io/IOException"⟩,
      ⟨⟨0⟩, ⟨1⟩, ⟨1⟩, none⟩ ]

theorem labelsApart_wrapping : LabelsApart wrapping.code :=
  have hbehind : LabelsApart (wrapping.code.drop 5) := labelsApart_of_length_le (by decide)
  have hhandler : LabelsApart (wrapping.code.drop 2) :=
    @LabelsApart.append_cons [.label ⟨1⟩, .line 7] _ _ (by decide) rfl hbehind
  @LabelsApart.append_cons [.label ⟨0⟩] _ _ (by decide) rfl hhandler

theorem wrapping_pruned : LabelsOnce wrapping.code ∧ LabelsApart wrapping.code ∧
    ∃ m' removed, prune wrapping = .ok (m', removed) ∧ removed = ⟨2, 1⟩ ∧ Prunes wrapping m' removed := by
  have honce : LabelsOnce wrapping.code := by decide
  have hprune : prune wrapping = .ok ({ wrapping with
      tries := [⟨⟨0⟩, ⟨1⟩, ⟨2⟩, some "java/io/IOException"⟩]
      code := [.label ⟨0⟩, .simple Opcode.vreturn, .label ⟨1⟩, .line 7, .label ⟨2⟩, .simple Opcode.athrow] },
      ⟨2, 1⟩) := by
    have horphans : orphans wrapping = [⟨1⟩] := by
      rw [orphans, List.mergeSort_of_pairwise (by decide)]
      decide
    have hspans : [⟨1⟩].filterMapM (bodyToDelete wrapping.code (labelPlaces wrapping.code)) = .ok [⟨4, 12⟩] := by
      decide
    rw [prune_eq, horphans, hspans]
    simp only [bind, Except.bind, List.mergeSort_singleton]
    decide
  exact ⟨honce, labelsApart_wrapping, _, _, hprune, rfl,
    (prune_removes_injected honce labelsApart_wrapping).1 _ _ hprune⟩

end Pruning

end Handlers

end Unscramble
