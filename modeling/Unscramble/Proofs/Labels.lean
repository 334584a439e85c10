/-
Labels and the places that use them.  The labels of a method are closed if each of them stands at one place at most and
every label that a jump, a switch or a handler range uses stands somewhere.  This stays so if the labels stay and no
other ones are used, as it is where handlers and redundant jumps are removed or multiplications put in.
-/
import Mathlib.Data.List.Perm.Basic
import Mathlib.Data.List.TakeDrop
import Unscramble.Cleanup.DeadCode
import Unscramble.Cleanup.Handlers
import Unscramble.Cleanup.Layout
import Unscramble.Multiplier.Cancel
import Unscramble.Proofs.Flow
import Unscramble.Proofs.Outline

namespace Unscramble

/-- The labels that stand in some code, in order. -/
def labelsIn (code : List Instr) : List Label :=
  code.filterMap Instr.label?

section Labels

variable {code code' : List Instr} {l : Label}

theorem Instr.label?_eq_some {instr : Instr} : instr.label? = some l ↔ instr = .label l := by
  cases instr <;> simp [Instr.label?]

theorem mem_labelsIn : l ∈ labelsIn code ↔ .label l ∈ code := by
  simp [labelsIn, Instr.label?_eq_some]

@[simp] theorem labelsIn_append : labelsIn (code ++ code') = labelsIn code ++ labelsIn code' :=
  List.filterMap_append

theorem labelsIn_eq_nil (h : ∀ l, .label l ∉ code) : labelsIn code = [] :=
  List.eq_nil_iff_forall_not_mem.2 fun l hl => h l (mem_labelsIn.1 hl)

theorem map_fst_labelPlaces (code : List Instr) : (labelPlaces code).map Prod.fst = (labelsIn code).reverse := by
  have hcode : code = code.zipIdx.map Prod.fst := by simp
  rw [labelPlaces, List.map_reverse, List.map_filterMap, labelsIn]
  conv_rhs => rw [hcode, List.filterMap_map]
  refine congrArg List.reverse (List.filterMap_congr ?_)
  rintro ⟨instr, index⟩ -
  cases instr <;> rfl

theorem labelsOnce_iff : LabelsOnce code ↔ (labelsIn code).Nodup := by
  rw [LabelsOnce, map_fst_labelPlaces, (List.reverse_perm _).nodup_iff]

/-- Between any two labels stands an instruction that is no marker. -/
def LabelsApart (code : List Instr) : Prop :=
  ∀ (i j : Nat) (l l' : Label), i < j → code[i]? = some (.label l) → code[j]? = some (.label l') →
    ∃ (k : Nat) (instr : Instr), i < k ∧ k < j ∧ code[k]? = some instr ∧ instr.isMarker = false

/-- Labels are apart where there is at most one of them. -/
theorem labelsApart_of_length_le (h : (labelsIn code).length ≤ 1) : LabelsApart code := by
  intro i j l l' hlt hi hj
  have hfirst : l ∈ labelsIn (code.take j) :=
    mem_labelsIn.2 (List.mem_of_getElem? ((List.getElem?_take_of_lt hlt).trans hi))
  have hlast : l' ∈ labelsIn (code.drop j) := by
    refine mem_labelsIn.2 (List.mem_of_getElem? (?_ : (code.drop j)[0]? = _))
    rw [List.getElem?_drop, Nat.add_zero, hj]
  have hboth : labelsIn code = labelsIn (code.take j) ++ labelsIn (code.drop j) := by
    rw [← labelsIn_append, List.take_append_drop]
  have hlength := congrArg List.length hboth
  have := List.length_pos_of_mem hfirst
  have := List.length_pos_of_mem hlast
  rw [List.length_append] at hlength
  omega

/-- An instruction separates the label in front of it from all later ones. -/
theorem LabelsApart.append_cons {front rest : List Instr} {instr : Instr} (hfront : (labelsIn front).length ≤ 1)
    (hreal : instr.isMarker = false) (hrest : LabelsApart rest) : LabelsApart (front ++ instr :: rest) := by
  have hmiddle : (front ++ instr :: rest)[front.length]? = some instr := by
    rw [List.getElem?_append_right (Nat.le_refl _), Nat.sub_self, List.getElem?_cons_zero]
  have hnot : ∀ {place l}, (front ++ instr :: rest)[place]? = some (.label l) → place ≠ front.length := by
    rintro place l hplace rfl
    obtain rfl := Option.some.inj (hmiddle.symm.trans hplace)
    cases hreal
  have hlater : ∀ place, (front ++ instr :: rest)[front.length + 1 + place]? = rest[place]? := fun place => by
    rw [List.getElem?_append_right (by omega), show front.length + 1 + place - front.length = place + 1 by omega,
      List.getElem?_cons_succ]
  intro i j l l' hlt hi hj
  have hi' := hnot hi
  have hj' := hnot hj
  rcases Nat.lt_or_gt_of_ne hj' with hbefore | hafter
  · rw [List.getElem?_append_left hbefore] at hj
    rw [List.getElem?_append_left (hlt.trans hbefore)] at hi
    obtain ⟨k, between, hik, hkj, hk, hbetween⟩ := labelsApart_of_length_le hfront i j l l' hlt hi hj
    exact ⟨k, between, hik, hkj, (List.getElem?_append_left (hkj.trans hbefore)).trans hk, hbetween⟩
  · rcases Nat.lt_or_gt_of_ne hi' with hbefore | hbehind
    · exact ⟨front.length, instr, hbefore, hafter, hmiddle, hreal⟩
    · obtain ⟨i, rfl⟩ := Nat.exists_eq_add_of_le hbehind
      obtain ⟨j, rfl⟩ := Nat.exists_eq_add_of_le hafter
      rw [hlater] at hi hj
      obtain ⟨k, between, hik, hkj, hk, hbetween⟩ := hrest i j l l' (by omega) hi hj
      exact ⟨front.length + 1 + k, between, by omega, by omega, (hlater k).trans hk, hbetween⟩

end Labels

namespace MethodDecl

variable {m m' : MethodDecl}

/-- The labels that jumps, switches and handler ranges use. -/
def usedLabels (m : MethodDecl) : List Label :=
  m.code.flatMap Instr.targets ++ DeadCode.pinned m.tries

/-- Every label stands at one place at most, and those that are used stand somewhere. -/
structure LabelsClosed (m : MethodDecl) : Prop where
  once : LabelsOnce m.code
  placed : m.usedLabels ⊆ labelsIn m.code

instance (m : MethodDecl) : Decidable m.LabelsClosed :=
  decidable_of_iff (LabelsOnce m.code ∧ ∀ l ∈ m.usedLabels, l ∈ labelsIn m.code)
    ⟨fun h => ⟨h.1, fun l => h.2 l⟩, fun h => ⟨h.once, fun _ hl => h.placed hl⟩⟩

theorem mem_usedLabels {l : Label} : l ∈ m.usedLabels ↔
    (∃ instr ∈ m.code, l ∈ instr.targets) ∨
      ∃ block ∈ m.tries, l = block.start ∨ l = block.stop ∨ l = block.handler := by
  simp [usedLabels, DeadCode.pinned]

/-- A method that has the same labels in some order and uses no others is closed again. -/
theorem LabelsClosed.of_perm (h : m.LabelsClosed) (hlabels : (labelsIn m'.code).Perm (labelsIn m.code))
    (hcode : ∀ instr ∈ m'.code, ∀ l ∈ instr.targets, ∃ instr' ∈ m.code, l ∈ instr'.targets)
    (htries : m'.tries ⊆ m.tries) : m'.LabelsClosed where
  once := labelsOnce_iff.2 (hlabels.nodup_iff.2 (labelsOnce_iff.1 h.once))
  placed := by
    intro l hl
    refine hlabels.mem_iff.2 (h.placed ?_)
    rw [mem_usedLabels] at hl ⊢
    rcases hl with ⟨instr, hinstr, htarget⟩ | ⟨block, hblock, hused⟩
    · exact .inl (hcode instr hinstr l htarget)
    · exact .inr ⟨block, htries hblock, hused⟩

/-- Other code for a method. -/
theorem LabelsClosed.withCode (h : m.LabelsClosed) {code : List Instr}
    (hlabels : (labelsIn code).Perm (labelsIn m.code))
    (hcode : ∀ instr ∈ code, ∀ l ∈ instr.targets, ∃ instr' ∈ m.code, l ∈ instr'.targets) :
    { m with code }.LabelsClosed :=
  h.of_perm hlabels hcode (List.Subset.refl _)

end MethodDecl

namespace Handlers

variable {m m' : MethodDecl} {code : List Instr} {span : Span}

theorem kept_subset (reports : Label → Bool) (tries : List TryBlock) (removed : List Label) :
    (splitCatchAlls reports tries removed).1 ⊆ tries := by
  induction tries generalizing removed with
  | nil => exact List.Subset.refl _
  | cons block rest ih =>
      rw [splitCatchAlls]
      split
      · exact List.subset_cons_of_subset block (ih _)
      · exact List.cons_subset_cons block (ih _)

/-- A range of which labels are spared keeps all labels, if it does not end before it starts. -/
theorem labelsIn_deleteSpan (hspan : span.first ≤ span.last + 1) (code : List Instr) :
    labelsIn (deleteSpan span code) = labelsIn code := by
  have hmiddle : ∀ part : List Instr, labelsIn (part.filter BlockGraph.isLabel) = labelsIn part := by
    intro part
    rw [labelsIn, List.filterMap_filter, labelsIn]
    congr 1
    funext instr
    cases instr <;> rfl
  have hsplit : code = code.take span.first ++ (code.drop span.first).take (span.last + 1 - span.first) ++
      code.drop (span.last + 1) := by
    rw [List.append_assoc]
    conv_lhs => rw [← List.take_append_drop span.first code]
    congr 1
    conv_lhs => rw [← List.take_append_drop (span.last + 1 - span.first) (code.drop span.first)]
    rw [List.drop_drop, Nat.add_sub_cancel' hspan]
  rw [deleteSpan, labelsIn_append, labelsIn_append, hmiddle]
  conv_rhs => rw [hsplit, labelsIn_append, labelsIn_append]

theorem deleteSpan_subset (span : Span) (code : List Instr) : deleteSpan span code ⊆ code := by
  intro instr h
  simp only [deleteSpan, List.mem_append, List.mem_filter] at h
  rcases h with (h | ⟨h, -⟩) | h
  · exact List.mem_of_mem_take h
  · exact List.mem_of_mem_drop (List.mem_of_mem_take h)
  · exact List.mem_of_mem_drop h

/-- A body lists its instructions from the first one to the last. -/
theorem pairwise_bodyAt (code : List Instr) (index : Nat) : (bodyAt code index).Pairwise fun a b => a.1 < b.1 := by
  have hsublist : ∀ {p q r : Instr × Nat → Bool},
      ((((code.zipIdx.drop index).filter p).dropWhile q).takeWhile r).Sublist code.zipIdx := fun {p q r} =>
    (List.takeWhile_sublist r).trans ((List.dropWhile_sublist q).trans
      (List.filter_sublist.trans (List.drop_sublist index _)))
  refine ((pairwise_zipIdx code).sublist hsublist).filterMap _ ?_
  rintro ⟨instr, place⟩ ⟨instr', place'⟩ hlt ⟨a, op⟩ ha ⟨b, op'⟩ hb
  obtain ⟨_, -, heq⟩ := Option.map_eq_some_iff.1 ha
  obtain ⟨_, -, heq'⟩ := Option.map_eq_some_iff.1 hb
  obtain ⟨rfl, -⟩ := Prod.mk.inj heq
  obtain ⟨rfl, -⟩ := Prod.mk.inj heq'
  exact hlt

theorem first_le_last {body : List (Nat × Opcode)} {shape : List Opcode} (hbody : body.Pairwise fun a b => a.1 < b.1)
    (h : matchShape body shape = some span) : span.first ≤ span.last := by
  have hcovered := hbody.sublist (List.take_sublist shape.length body)
  simp only [matchShape] at h
  split at h
  · split at h
    · next first _ last _ hfirst hlast =>
        obtain rfl := Option.some.inj h
        obtain ⟨rest, hrest⟩ := List.head?_eq_some_iff.1 hfirst
        rw [hrest, List.pairwise_cons] at hcovered
        rw [hrest] at hlast
        rcases List.mem_cons.1 (List.mem_of_getLast? hlast) with heq | hmem
        · exact Nat.le_of_eq (congrArg Prod.fst heq).symm
        · exact Nat.le_of_lt (hcovered.1 _ hmem)
    · cases h
  · cases h

theorem span_of_bodyToDelete {places : List (Label × Nat)} {handler : Label}
    (h : bodyToDelete code places handler = .ok (some span)) : span.first ≤ span.last := by
  unfold bodyToDelete at h
  split at h
  · cases h
  · next index _ =>
      split at h
      · cases h
      · next found hreport =>
          obtain ⟨shape, -, hshape⟩ := List.exists_of_findSome?_eq_some hreport
          have hle := first_le_last (pairwise_bodyAt code index) hshape
          split at h <;> cases h <;> exact hle

/-- Removing injected handlers keeps all labels and uses no others. -/
theorem labelsClosed_prune {removed : Removed} (hm : m.LabelsClosed) (h : prune m = .ok (m', removed)) :
    m'.LabelsClosed := by
  simp only [prune, List.partition_eq_filter_filter] at h
  obtain ⟨spans, hspans, h⟩ := bind_eq_ok.1 h
  obtain ⟨rfl, -⟩ := Prod.mk.inj (Except.ok.inj h)
  have hordered : ∀ span ∈ spans.mergeSort fun a b => a.first ≤ b.first, span.first ≤ span.last := by
    intro span hspan
    obtain ⟨handler, -, hdelete⟩ := exists_of_mem_filterMapM hspans (List.mem_mergeSort.1 hspan)
    exact span_of_bodyToDelete hdelete
  generalize (spans.mergeSort fun a b => a.first ≤ b.first) = sorted at hordered
  have hdeleted : labelsIn (sorted.foldr deleteSpan m.code) = labelsIn m.code ∧
      sorted.foldr deleteSpan m.code ⊆ m.code := by
    clear hspans
    induction sorted with
    | nil => exact ⟨rfl, List.Subset.refl _⟩
    | cons span rest ih =>
        obtain ⟨hlabels, hsubset⟩ := ih fun other hother => hordered other (List.mem_cons_of_mem span hother)
        have hspan := hordered span List.mem_cons_self
        exact ⟨(labelsIn_deleteSpan (by omega) _).trans hlabels,
          List.Subset.trans (deleteSpan_subset span _) hsubset⟩
  refine hm.of_perm (.of_eq hdeleted.1) ?_ ?_
  · exact fun instr hinstr l hl => ⟨instr, hdeleted.2 hinstr, hl⟩
  · exact List.Subset.trans (kept_subset _ _ _) fun block hblock => (List.mem_filter.1 hblock).1

end Handlers

theorem RedundantGoto.labelsIn_remove (code : List Instr) : labelsIn (remove code) = labelsIn code := by
  induction code with
  | nil => rfl
  | cons instr rest ih =>
      rw [remove]
      split
      · next hredundant =>
          have hjump : instr.label? = none := by
            cases instr with
            | label l => cases hredundant
            | _ => rfl
          rw [ih, labelsIn, labelsIn, List.filterMap_cons, hjump]
      · simp only [labelsIn, List.filterMap_cons] at ih ⊢
        rw [ih]

namespace Multiplier

namespace Cancel

variable {decoders : Decoders} {pending : List Insertion}

theorem times_plain (n : Number) : ∀ instr ∈ times n, instr.label? = none ∧ instr.targets = [] := by
  cases n <;> simp [times, Instr.label?, Instr.targets]

/-- Putting in instructions keeps the others in order. -/
theorem go_spec (hpending : ∀ insertion ∈ pending, ∃ n, insertion.instrs = times n) (code : List Instr) (index : Nat)
    (done : List Instr) :
    labelsIn (insertAll.go pending code index done) = labelsIn done.reverse ++ labelsIn code ∧
      ∀ instr ∈ insertAll.go pending code index done,
        instr ∈ done ∨ instr ∈ code ∨ ∃ n, instr ∈ times n := by
  have hflat : ∀ {part : List Insertion}, part ⊆ pending → ∀ instr ∈ part.flatMap Insertion.instrs,
      ∃ n, instr ∈ times n := by
    intro part hpart instr hinstr
    obtain ⟨insertion, hinsertion, hinstr⟩ := List.mem_flatMap.1 hinstr
    obtain ⟨n, hn⟩ := hpending insertion (hpart hinsertion)
    exact ⟨n, hn ▸ hinstr⟩
  have hlabels : ∀ {part : List Insertion}, part ⊆ pending → labelsIn (part.flatMap Insertion.instrs) = [] := by
    intro part hpart
    refine labelsIn_eq_nil fun l hl => ?_
    obtain ⟨n, hn⟩ := hflat hpart _ hl
    cases (times_plain n _ hn).1
  induction code generalizing pending index done with
  | nil =>
      rw [insertAll.go, labelsIn_append, hlabels (List.Subset.refl _)]
      refine ⟨rfl, fun instr hinstr => ?_⟩
      rcases List.mem_append.1 hinstr with hdone | hinserted
      · exact .inl (List.mem_reverse.1 hdone)
      · exact .inr (.inr (hflat (List.Subset.refl _) instr hinserted))
  | cons instr rest ih =>
      rw [insertAll.go, List.span_eq_takeWhile_dropWhile]
      have hhere := (List.takeWhile_sublist (l := pending) (·.position ≤ index)).subset
      have hlater := (List.dropWhile_sublist (l := pending) (·.position ≤ index)).subset
      obtain ⟨hkept, hmem⟩ := ih (fun insertion hinsertion => hpending insertion (hlater hinsertion)) (index + 1)
        (instr :: (List.flatMap Insertion.instrs (pending.takeWhile (·.position ≤ index))).reverse ++ done)
        (fun hpart => hflat (List.Subset.trans hpart hlater)) (fun hpart => hlabels (List.Subset.trans hpart hlater))
      refine ⟨?_, fun other hother => ?_⟩
      · rw [hkept, List.cons_append, List.reverse_cons, List.reverse_append, List.reverse_reverse, labelsIn_append,
          labelsIn_append, hlabels hhere, List.append_nil, List.append_assoc, ← labelsIn_append]
        rfl
      · rcases hmem other hother with hdone | hrest | htimes
        · simp only [List.cons_append, List.mem_cons, List.mem_append, List.mem_reverse] at hdone
          rcases hdone with rfl | hinserted | hdone
          · exact .inr (.inl List.mem_cons_self)
          · exact .inr (.inr (hflat hhere other hinserted))
          · exact .inl hdone
        · exact .inr (.inl (List.mem_cons_of_mem instr hrest))
        · exact .inr (.inr htimes)

theorem instrs_of_access {op : Opcode} {ref : MemberRef} {decoder : Number} {index : Nat}
    {previous next : Option Opcode} {found : List Insertion}
    (h : access op ref decoder index previous next = .ok (some found)) :
    ∀ insertion ∈ found, ∃ n, insertion.instrs = times n := by
  have hone : ∀ {position n}, found = [⟨position, times n⟩] → ∀ insertion ∈ found, ∃ n, insertion.instrs = times n := by
    rintro position n rfl insertion hinsertion
    exact ⟨n, List.mem_singleton.1 hinsertion ▸ rfl⟩
  unfold access at h
  simp only at h
  split at h
  · split at h <;> (obtain ⟨n, -, h⟩ := bind_eq_ok.1 h; exact hone (Option.some.inj (Except.ok.inj h)).symm)
  · split at h
    · split at h
      · split at h
        · obtain ⟨n, -, h⟩ := bind_eq_ok.1 h
          obtain rfl := Option.some.inj (Except.ok.inj h)
          simp
        · split at h
          · cases h
          · exact hone (Option.some.inj (Except.ok.inj h)).symm
      · exact hone (Option.some.inj (Except.ok.inj h)).symm
    · cases h

theorem instrs_of_insertions {code : Array Instr} {index : Nat} {found : List Insertion}
    (h : insertions decoders code index = .ok (some found)) :
    ∀ insertion ∈ found, ∃ n, insertion.instrs = times n := by
  unfold insertions at h
  split at h
  · split at h
    · split at h
      · exact instrs_of_access h
      · cases h
    · cases h
  · cases h

end Cancel

/-- Cancelling multipliers keeps all labels and uses no others. -/
theorem labelsClosed_cancel {decoders : Decoders} {m m' : MethodDecl} {count : Nat} (hm : m.LabelsClosed)
    (h : cancel decoders m = .ok (m', count)) : m'.LabelsClosed := by
  obtain ⟨found, hfound, h⟩ := bind_eq_ok.1 h
  obtain ⟨rfl, -⟩ := Prod.mk.inj (Except.ok.inj h)
  have hinserted : ∀ insertion ∈ found.flatten.mergeSort fun a b => a.position ≤ b.position,
      ∃ n, insertion.instrs = Cancel.times n := by
    intro insertion hinsertion
    obtain ⟨list, hlist, hinsertion⟩ := List.mem_flatten.1 (List.mem_mergeSort.1 hinsertion)
    obtain ⟨index, -, hanswer⟩ := exists_of_mem_filterMapM hfound hlist
    exact Cancel.instrs_of_insertions hanswer insertion hinsertion
  obtain ⟨hlabels, hmem⟩ := Cancel.go_spec hinserted m.code 0 []
  refine hm.withCode (.of_eq hlabels) fun instr hinstr l hl => ?_
  rcases hmem instr hinstr with hdone | hcode | ⟨n, hn⟩
  · cases hdone
  · exact ⟨instr, hcode, hl⟩
  · rw [(Cancel.times_plain n instr hn).2] at hl
    cases hl

end Multiplier

end Unscramble
