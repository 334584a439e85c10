/-
Labels and lines put back among the instructions.  The reader gathers the offsets to which anything refers, and puts
labels and lines before the instruction at their offset; so the position of a mark is the rank of its offset, the
number of instructions that start before it.
-/
import Mathlib.Data.List.TakeDrop
import Mathlib.Tactic.Tauto
import Unscramble.ClassFile.Code
import Unscramble.Proofs.Outline

namespace Unscramble.ClassFile.Code

section Targets

theorem mem_distinct {targets done : List Nat} {o : Nat} : o ∈ distinct targets done ↔ o ∈ targets ∨ o ∈ done := by
  induction targets generalizing done with
  | nil => simp [distinct]
  | cons n rest ih =>
      rw [distinct]
      split
      · next hhead =>
          have hn : n ∈ done := List.mem_of_mem_head? hhead
          rw [ih, List.mem_cons]
          refine ⟨fun h => h.imp_left .inr, ?_⟩
          rintro ((rfl | h) | h)
          · exact .inr hn
          · exact .inl h
          · exact .inr h
      · rw [ih, List.mem_cons, List.mem_cons]
        tauto

theorem pairwise_distinct {targets done : List Nat} (htargets : targets.Pairwise (· ≤ ·))
    (hdone : done.Pairwise (· > ·)) (hle : ∀ d ∈ done, ∀ o ∈ targets, d ≤ o) :
    (distinct targets done).Pairwise (· < ·) := by
  induction targets generalizing done with
  | nil => exact List.pairwise_reverse.2 hdone
  | cons n rest ih =>
      obtain ⟨hfirst, hrest⟩ := List.pairwise_cons.1 htargets
      rw [distinct]
      split
      · exact ih hrest hdone fun d hd o ho => hle d hd o (List.mem_cons_of_mem n ho)
      · next hhead =>
          have hlt : ∀ d ∈ done, d < n := by
            intro d hd
            have hdn := hle d hd n List.mem_cons_self
            refine Nat.lt_of_le_of_ne hdn fun heq => ?_
            -- the head is the greatest, so a repetition would stand there
            cases done with
            | nil => cases hd
            | cons head tail =>
                have hheadn := hle head List.mem_cons_self n List.mem_cons_self
                rcases List.mem_cons.1 hd with rfl | hd
                · exact hhead (by rw [heq]; rfl)
                · have hgt := List.rel_of_pairwise_cons hdone hd
                  omega
          refine ih hrest (List.pairwise_cons.2 ⟨hlt, hdone⟩) ?_
          exact List.forall_mem_cons.2 ⟨hfirst, fun d hd o ho => hle d hd o (List.mem_cons_of_mem n ho)⟩

/-- The offsets to which anything refers, ascending and without repetitions. -/
theorem gathered_targets (found : List Nat) : (distinct found.mergeSort []).Pairwise (· < ·) ∧
    ∀ o, o ∈ distinct found.mergeSort [] ↔ o ∈ found := by
  have hsorted : found.mergeSort.Pairwise (· ≤ ·) := pairwise_mergeSort_key id found
  refine ⟨pairwise_distinct hsorted .nil nofun, fun o => ?_⟩
  rw [mem_distinct, List.mem_mergeSort]
  simp

/-- Ascending targets that are all boundaries. -/
theorem firstOutside?_eq_none {targets bounds : List Nat} (htargets : targets.Pairwise (· ≤ ·))
    (hbounds : bounds.Pairwise (· < ·)) (hmem : ∀ o ∈ targets, o ∈ bounds) :
    firstOutside? targets bounds = none := by
  fun_induction firstOutside? targets bounds with
  | case1 => rfl
  | case2 target more => exact absurd (hmem target List.mem_cons_self) List.not_mem_nil
  | case3 more target rest ih =>
      exact ih (List.pairwise_cons.1 htargets).2 hbounds fun o ho => hmem o (List.mem_cons_of_mem _ ho)
  | case4 target more boundary rest hne hlt =>
      rcases List.mem_cons.1 (hmem target List.mem_cons_self) with heq | hrest
      · exact absurd heq hne
      · have := List.rel_of_pairwise_cons hbounds hrest
        omega
  | case5 target more boundary rest hne hlt ih =>
      refine ih htargets (List.pairwise_cons.1 hbounds).2 fun o ho => ?_
      have hle : target ≤ o := by
        rcases List.mem_cons.1 ho with rfl | ho
        · exact Nat.le_refl _
        · exact List.rel_of_pairwise_cons htargets ho
      exact (List.mem_cons.1 (hmem o ho)).resolve_left (by omega)

end Targets

section Ranks

variable {bounds : List Nat} {stop s e : Nat}

/-- The number of instructions that start before an offset. -/
def rank (bounds : List Nat) (o : Nat) : Nat :=
  bounds.countP (· < o)

theorem rank_first (h : ∀ o ∈ bounds, s ≤ o) : rank bounds s = 0 := by
  rw [rank, List.countP_eq_zero]
  intro o ho
  have hle := h o ho
  simpa using hle

theorem rank_cons (h : s < e) : rank (s :: bounds) e = rank bounds e + 1 := by
  simp [rank, h]

/-- Among the boundaries of a body, offsets are in the same order as positions. -/
theorem rank_lt_rank (hbounds : (bounds ++ [stop]).Pairwise (· < ·)) (hs : s ∈ bounds ++ [stop])
    (he : e ∈ bounds ++ [stop]) : rank bounds s < rank bounds e ↔ s < e := by
  induction bounds with
  | nil =>
      obtain rfl := List.mem_singleton.1 hs
      obtain rfl := List.mem_singleton.1 he
      simp
  | cons first bounds ih =>
      obtain ⟨hfirst, hrest⟩ := List.pairwise_cons.1 hbounds
      have hzero : rank (first :: bounds) first = 0 := by
        refine rank_first (List.forall_mem_cons.2 ⟨Nat.le_refl _, fun o ho => ?_⟩)
        exact Nat.le_of_lt (hfirst o (List.mem_append_left _ ho))
      rcases List.mem_cons.1 hs with rfl | hs' <;> rcases List.mem_cons.1 he with rfl | he'
      · simp
      · have hlt := hfirst e he'
        rw [hzero, rank_cons hlt]
        simp [hlt]
      · have hlt := hfirst s hs'
        rw [hzero, rank_cons hlt]
        omega
      · rw [rank_cons (hfirst s hs'), rank_cons (hfirst e he'), Nat.add_lt_add_iff_right, ih hrest hs' he']

/-- The end of the code is behind all instructions, and no other boundary is. -/
theorem rank_lt_length (hbounds : (bounds ++ [stop]).Pairwise (· < ·)) (hs : s ∈ bounds ++ [stop]) :
    rank bounds s < bounds.length ↔ s < stop := by
  have hstop : rank bounds stop = bounds.length := by
    rw [rank, List.countP_eq_length]
    intro o ho
    exact decide_eq_true ((List.pairwise_append.1 hbounds).2.2 o ho stop (List.mem_singleton_self _))
  rw [← hstop, rank_lt_rank hbounds hs (List.mem_append_right _ (List.mem_singleton_self _))]

end Ranks

section Markers

variable {α : Type} {offset stop : Nat}

/-- A run of items at one offset is split off at the front of ascending ones. -/
theorem span_ascending {items : List (Nat × α)} {t : Nat × α → Bool} (hsorted : items.Pairwise (·.1 ≤ ·.1))
    (htest : ∀ p ∈ items, offset ≤ p.1 ∧ (t p = true ↔ p.1 = offset)) :
    ∃ here later, items.span t = (here, later) ∧ items = here ++ later ∧ (∀ p ∈ here, p.1 = offset) ∧
      ∀ p ∈ later, offset < p.1 := by
  refine ⟨items.takeWhile t, items.dropWhile t, List.span_eq_takeWhile_dropWhile _ _,
    List.takeWhile_append_dropWhile.symm, fun p hp => ?_, fun p hp => ?_⟩
  · exact (htest p (List.takeWhile_subset _ hp)).2.1 (List.all_eq_true.1 List.all_takeWhile p hp)
  · induction items with
    | nil => cases hp
    | cons first items ih =>
        obtain ⟨hfirst, hrest⟩ := List.pairwise_cons.1 hsorted
        obtain ⟨hle, hiff⟩ := htest first List.mem_cons_self
        by_cases heq : t first = true
        · rw [List.dropWhile_cons_of_pos heq] at hp
          exact ih hrest (fun q hq => htest q (List.mem_cons_of_mem first hq)) hp
        · rw [List.dropWhile_cons_of_neg heq] at hp
          have hlt : offset < first.1 := Nat.lt_of_le_of_ne hle fun h => heq (hiff.2 h.symm)
          rcases List.mem_cons.1 hp with rfl | hp
          · exact hlt
          · exact Nat.lt_of_lt_of_le hlt (hfirst p hp)

theorem withMarkers_append (labels : Labels) (lines : List (Nat × UInt16)) (instrs : List (Nat × Instr))
    (done : List Instr) :
    withMarkers labels lines instrs done = done.reverse ++ withMarkers labels lines instrs [] := by
  induction instrs generalizing labels lines done with
  | nil => simp [withMarkers, List.reverseAux_eq]
  | cons first rest ih =>
      obtain ⟨offset, instr⟩ := first
      rcases hlabels : labels.span (·.1 = offset) with ⟨here, later⟩
      rcases hlines : lines.span (·.1 ≤ offset) with ⟨linesHere, linesLater⟩
      simp only [withMarkers, hlabels, hlines]
      conv_lhs => rw [ih]
      conv_rhs => rw [ih]
      simp

theorem withMarkers_nil (labels : Labels) (lines : List (Nat × UInt16)) :
    withMarkers labels lines [] [] = labels.map fun p => .label p.2 := by
  simp [withMarkers, List.reverseAux_eq]

theorem withMarkers_cons {labels here later : Labels} {lines linesHere linesLater : List (Nat × UInt16)}
    (hlabels : labels.span (·.1 = offset) = (here, later))
    (hlines : lines.span (·.1 ≤ offset) = (linesHere, linesLater)) (instr : Instr) (rest : List (Nat × Instr)) :
    withMarkers labels lines ((offset, instr) :: rest) [] =
      (here.map (fun p => .label p.2) ++ linesHere.map (fun p => .line p.2)) ++
        instr :: withMarkers later linesLater rest [] := by
  simp only [withMarkers, hlabels, hlines]
  rw [withMarkers_append]
  simp

/-- Labels and lines of a body by offsets, as the reader has them when it puts them among the instructions. -/
structure Marks (labels : Labels) (lines : List (Nat × UInt16)) (bounds : List Nat) (stop : Nat) : Prop where
  ascending : (bounds ++ [stop]).Pairwise (· < ·)
  labels_sorted : labels.Pairwise (·.1 ≤ ·.1)
  labels_mem : ∀ p ∈ labels, p.1 ∈ bounds ++ [stop]
  lines_sorted : lines.Pairwise (·.1 ≤ ·.1)
  lines_mem : ∀ p ∈ lines, p.1 ∈ bounds

/-- The marks of the first instruction are split off. -/
theorem Marks.split {labels : Labels} {lines : List (Nat × UInt16)} {rest : List Nat}
    (h : Marks labels lines (offset :: rest) stop) :
    ∃ here later linesHere linesLater, labels.span (·.1 = offset) = (here, later) ∧
      lines.span (·.1 ≤ offset) = (linesHere, linesLater) ∧ labels = here ++ later ∧
      lines = linesHere ++ linesLater ∧ (∀ p ∈ here, p.1 = offset) ∧ (∀ p ∈ later, offset < p.1) ∧
      (∀ p ∈ linesHere, p.1 = offset) ∧ (∀ p ∈ linesLater, offset < p.1) ∧ Marks later linesLater rest stop := by
  obtain ⟨hfirst, hrest⟩ := List.pairwise_cons.1 h.ascending
  have hge : ∀ o ∈ offset :: (rest ++ [stop]), offset ≤ o :=
    List.forall_mem_cons.2 ⟨Nat.le_refl _, fun o ho => Nat.le_of_lt (hfirst o ho)⟩
  have hline : ∀ p ∈ lines, offset ≤ p.1 := fun p hp => hge p.1 (List.mem_append_left [stop] (h.lines_mem p hp))
  obtain ⟨here, later, hspan, hlabels, hhere, hlater⟩ := span_ascending h.labels_sorted
    (t := fun p => decide (p.1 = offset)) fun p hp => ⟨hge p.1 (h.labels_mem p hp), decide_eq_true_iff⟩
  obtain ⟨linesHere, linesLater, hlineSpan, hlines, hlinesHere, hlinesLater⟩ := span_ascending h.lines_sorted
    (t := fun p => decide (p.1 ≤ offset)) fun p hp => ⟨hline p hp, by
      have hle := hline p hp
      rw [decide_eq_true_iff]
      omega⟩
  refine ⟨here, later, linesHere, linesLater, hspan, hlineSpan, hlabels, hlines, hhere, hlater, hlinesHere,
    hlinesLater, hrest, ?_, fun p hp => ?_, ?_, fun p hp => ?_⟩
  · exact (List.pairwise_append.1 (hlabels ▸ h.labels_sorted)).2.1
  · have hmem := h.labels_mem p (hlabels ▸ List.mem_append_right _ hp)
    exact (List.mem_cons.1 hmem).resolve_left (Nat.ne_of_gt (hlater p hp))
  · exact (List.pairwise_append.1 (hlines ▸ h.lines_sorted)).2.1
  · have hmem := h.lines_mem p (hlines ▸ List.mem_append_right _ hp)
    exact (List.mem_cons.1 hmem).resolve_left (Nat.ne_of_gt (hlinesLater p hp))

/-- Everything at the offset of the first instruction has its position. -/
theorem map_rank_split {items here later : List (Nat × α)} {rest : List Nat} (front : Nat)
    (hitems : items = here ++ later) (hge : ∀ o ∈ offset :: rest, offset ≤ o) (hhere : ∀ p ∈ here, p.1 = offset)
    (hlater : ∀ p ∈ later, offset < p.1) :
    items.map (fun p => (front + rank (offset :: rest) p.1, p.2)) =
      here.map (fun p => (front, p.2)) ++ later.map fun p => (front + 1 + rank rest p.1, p.2) := by
  rw [hitems, List.map_append]
  congr 1
  · refine List.map_congr_left fun p hp => ?_
    rw [hhere p hp, rank_first hge, Nat.add_zero]
  · refine List.map_congr_left fun p hp => ?_
    rw [rank_cons (hlater p hp), Nat.add_assoc, Nat.add_comm 1]

/-- The markers for labels and lines. -/
def marksOf (labels : Labels) (lines : List (Nat × UInt16)) : List Instr :=
  labels.map (fun p => .label p.2) ++ lines.map (fun p => .line p.2)

theorem isMarker_of_mem {labels : Labels} {lines : List (Nat × UInt16)} :
    ∀ i ∈ marksOf labels lines, i.isMarker = true := by
  simp only [marksOf, List.mem_append, List.mem_map]
  rintro i (⟨p, -, rfl⟩ | ⟨p, -, rfl⟩) <;> rfl

theorem filter_marksOf (labels : Labels) (lines : List (Nat × UInt16)) :
    (marksOf labels lines).filter (!·.isMarker) = [] := by
  rw [List.filter_eq_nil_iff]
  intro i hi
  rw [isMarker_of_mem i hi]
  decide

theorem filterMap_label?_marksOf (labels : Labels) (lines : List (Nat × UInt16)) :
    (marksOf labels lines).filterMap Instr.label? = labels.map Prod.snd := by
  simp [marksOf, List.filterMap_map, Function.comp_def, Instr.label?]

theorem filterMap_line?_marksOf (labels : Labels) (lines : List (Nat × UInt16)) :
    (marksOf labels lines).filterMap Instr.line? = lines.map Prod.snd := by
  simp [marksOf, List.filterMap_map, Function.comp_def, Instr.line?]

/-- The instructions with their marks: all instructions in order, and every mark at the position of its offset. -/
theorem Marks.placed {labels : Labels} {lines : List (Nat × UInt16)} {instrs : List (Nat × Instr)}
    (h : Marks labels lines (instrs.map Prod.fst) stop) (hreal : ∀ p ∈ instrs, p.2.isMarker = false) (front : Nat) :
    (withMarkers labels lines instrs []).filter (!·.isMarker) = instrs.map Prod.snd ∧
      positions Instr.line? front (withMarkers labels lines instrs []) =
        lines.map (fun p => (front + rank (instrs.map Prod.fst) p.1, p.2)) ∧
      positions Instr.label? front (withMarkers labels lines instrs []) =
        labels.map (fun p => (front + rank (instrs.map Prod.fst) p.1, p.2)) := by
  induction instrs generalizing labels lines front with
  | nil =>
      obtain rfl : lines = [] := List.eq_nil_iff_forall_not_mem.2 fun p hp => List.not_mem_nil (h.lines_mem p hp)
      have hmarks : withMarkers labels [] [] [] = marksOf labels [] := by
        rw [withMarkers_nil, marksOf, List.map_nil, List.append_nil]
      rw [hmarks, filter_marksOf, positions_markers isMarker_of_mem, positions_markers isMarker_of_mem,
        filterMap_label?_marksOf, filterMap_line?_marksOf]
      exact ⟨rfl, rfl, List.map_map⟩
  | cons first rest ih =>
      obtain ⟨offset, instr⟩ := first
      obtain ⟨here, later, linesHere, linesLater, hspan, hlineSpan, hlabels, hlines, hhere, hlater, hlinesHere,
        hlinesLater, hrest⟩ := h.split
      obtain ⟨hinstr, hinstrs⟩ := List.forall_mem_cons.1 hreal
      obtain ⟨hreals, hlinePositions, hlabelPositions⟩ := ih hrest hinstrs (front + 1)
      have hge : ∀ o ∈ offset :: rest.map Prod.fst, offset ≤ o := by
        refine List.forall_mem_cons.2 ⟨Nat.le_refl _, fun o ho => ?_⟩
        exact Nat.le_of_lt (List.rel_of_pairwise_cons h.ascending (List.mem_append_left _ ho))
      have hcode : withMarkers labels lines ((offset, instr) :: rest) [] =
          marksOf here linesHere ++ instr :: withMarkers later linesLater rest [] :=
        withMarkers_cons hspan hlineSpan instr rest
      rw [hcode, List.map_cons, List.map_cons]
      refine ⟨?_, ?_, ?_⟩
      · rw [List.filter_append, filter_marksOf, List.nil_append, List.filter_cons_of_pos (by rw [hinstr]; rfl), hreals]
      · rw [positions_append_markers isMarker_of_mem, filterMap_line?_marksOf, List.map_map,
          positions_cons_instr hinstr (Instr.line?_of_not_isMarker hinstr), hlinePositions,
          map_rank_split front hlines hge hlinesHere hlinesLater]
        rfl
      · rw [positions_append_markers isMarker_of_mem, filterMap_label?_marksOf, List.map_map,
          positions_cons_instr hinstr (Instr.label?_of_not_isMarker hinstr), hlabelPositions,
          map_rank_split front hlabels hge hhere hlater]
        rfl

end Markers

end Unscramble.ClassFile.Code
