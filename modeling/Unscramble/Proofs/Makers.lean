/-
The instructions that make values.  A label makes none, so whatever an analysis learns about a value, it was not made by
a label; and folding changes only instructions that made a constant or a product.  So folding keeps every label.
-/
import Unscramble.Proofs.Fixpoint
import Unscramble.Proofs.FoldParts
import Unscramble.Proofs.Labels

namespace Unscramble

section Values

variable {V : Type} {d : Domain V} {P : V → Prop} {f g : Frame V}

theorem Frame.mergeValues_good (hmerge : ∀ a b, P a → P b → P (d.merge a b)) {present arriving : List V}
    (hpresent : ∀ a ∈ present, P a) (harriving : ∀ a ∈ arriving, P a) :
    ∀ a ∈ (mergeValues d present arriving).1, P a := by
  intro a ha
  obtain ⟨slot, hslot, rfl⟩ := List.mem_map.1 ha
  obtain ⟨index, hindex, rfl⟩ := List.mem_iff_getElem.1 hslot
  rw [List.getElem_zipWith, mergeValue]
  have hfirst := hpresent _ (List.getElem_mem (l := present) (n := index) (by simp at hindex; omega))
  have hsecond := harriving _ (List.getElem_mem (l := arriving) (n := index) (by simp at hindex; omega))
  split
  · exact hfirst
  · exact hmerge _ _ hfirst hsecond

theorem Frame.merge_good (hmerge : ∀ a b, P a → P b → P (d.merge a b)) {merged : Frame V} {changed : Bool}
    (hf : f.Good P) (hg : g.Good P) (h : f.merge d g = .ok (merged, changed)) : merged.Good P := by
  unfold merge at h
  split at h
  · obtain ⟨rfl, -⟩ := Prod.mk.inj (Except.ok.inj h)
    exact ⟨mergeValues_good hmerge hf.1 hg.1, mergeValues_good hmerge hf.2 hg.2⟩
  · cases h

/-- All values that an event shows are good. -/
def Event.Good (P : V → Prop) : Event V → Prop
  | .step _ before => before.Good P
  | .edge _ _ => True
  | .join present arriving => present.Good P ∧ arriving.Good P

/-- All values that an analysis has met are good. -/
structure Progress.Values (P : V → Prop) (p : Progress V) : Prop where
  frames : ∀ index frame, p.frameAt index = some frame → frame.Good P
  events : ∀ event ∈ p.events, event.Good P

/-- What a domain makes of good values along a flow is good.  An instruction without effect makes nothing. -/
structure Domain.MakesAlong (d : Domain V) (P : V → Prop) (flow : Flow) : Prop where
  fresh : ∀ kind, P (d.fresh kind)
  merge : ∀ a b, P a → P b → P (d.merge a b)
  instrs : ∀ index instr effect, flow.code[index]? = some (instr, effect) → effect ≠ .nop →
    d.Makes P index instr

variable {flow : Flow} {p q : Progress V}

theorem Progress.Values.note (hp : p.Values P) (event : Event V) (hevent : event.Good P) :
    Progress.Values P { p with events := event :: p.events } :=
  ⟨hp.frames, List.forall_mem_cons.2 ⟨hevent, hp.events⟩⟩

theorem Progress.Values.set (hp : p.Values P) (target : Nat) {frame : Frame V} (hframe : frame.Good P)
    (pending : List Nat) :
    Progress.Values P { p with frames := p.frames.setIfInBounds target (some frame), pending } := by
  refine ⟨fun index other hother => ?_, hp.events⟩
  rw [frameAt, Option.join_eq_some_iff, Array.getElem?_setIfInBounds] at hother
  split at hother
  · split at hother
    · exact Option.some.inj (Option.some.inj hother) ▸ hframe
    · cases hother
  · exact hp.frames index other (by rw [frameAt, Option.join_eq_some_iff, hother])

namespace Analysis

theorem arrive_values (hmerge : ∀ a b, P a → P b → P (d.merge a b)) (hp : p.Values P) {target : Nat}
    {frame : Frame V} (hframe : frame.Good P) (h : (arrive d target frame).run p = .ok () q) : q.Values P := by
  rcases arrive_eq_ok h with ⟨-, rfl⟩ | ⟨present, merged, changed, hpresent, hmerged, rfl⟩
  · exact hp.set target hframe _
  · have hold := hp.frames target present hpresent
    have hnoted := hp.note (.join present frame) ⟨hold, hframe⟩
    cases changed with
    | true => exact hnoted.set target (Frame.merge_good hmerge hold hframe hmerged) _
    | false => exact hnoted

theorem execute_values (hd : d.MakesAlong P flow) {index : Nat} {instr : Instr} {effect : Effect}
    (hcode : flow.code[index]? = some (instr, effect)) (hf : f.Good P)
    (h : f.execute d index instr effect = .ok g) : g.Good P := by
  by_cases hnop : effect = .nop
  · subst hnop
    exact Except.ok.inj h ▸ hf
  · exact (Frame.execute_ok (hd.instrs index instr effect hcode hnop) hf h).1

theorem follow_values (hd : d.MakesAlong P flow) (hp : p.Values P) {index : Nat}
    (h : (follow d flow index).run p = .ok () q) : q.Values P := by
  rcases follow_eq_ok h with
    ⟨instr, effect, before, after, next, middle, hcode, hbefore, hafter, -, hmiddle, hlater⟩ | ⟨-, rfl⟩
  · have hgood := hp.frames index before hbefore
    have hexception : (before.atHandler d).Good P := ⟨hgood.1, by simpa [Frame.atHandler] using hd.fresh .reference⟩
    have hfirst : middle.Values P := by
      refine forM_keeps (I := Progress.Values P) (fun target _ r t hr hrun => ?_)
        (hp.note (.step index before) hgood) hmiddle
      exact arrive_values hd.merge (hr.note (.edge index target) trivial) (execute_values hd hcode hgood hafter)
        (arriveAlong_eq_ok hrun).2
    refine forM_keeps (I := Progress.Values P) (fun range _ r t hr hrun => ?_) hfirst hlater
    rcases arriveAtHandler_eq_ok hrun with ⟨-, harrive⟩ | ⟨-, rfl⟩
    · exact arrive_values hd.merge hr hexception harrive
    · exact hr
  · exact hp

/-- An analysis that comes to its end has met good values only, and leaves no others. -/
theorem analyze_values {m : MethodDecl} {frames : Array (Option (Frame V))}
    (hd : ∀ flow, Flow.ofMethod m = .ok flow → d.MakesAlong P flow) (h : (analyze d m).result = .ok frames) :
    (∀ event ∈ (analyze d m).trace, event.Good P) ∧ ∀ frame, some frame ∈ frames → frame.Good P := by
  by_cases hcode : m.code = []
  · rw [analyze, hcode] at h ⊢
    obtain rfl := Except.ok.inj h
    exact ⟨List.forall_mem_nil _, fun frame hframe => absurd hframe (Array.not_mem_empty _)⟩
  · obtain ⟨flow, entry, last, hflow, hentry, hrun, rfl, hanalysis⟩ := exists_settle hcode h
    have hmakes := hd flow hflow
    have hempty : Progress.Values P ({ frames := Array.replicate flow.code.size none } : Progress V) := by
      refine ⟨fun index frame hframe => ?_, List.forall_mem_nil _⟩
      rw [Progress.frameAt, Array.getElem?_replicate] at hframe
      split at hframe <;> cases hframe
    have hstart := hempty.set 0 (entryFrame_good hmakes.fresh hentry) [0]
    have hlast : last.Values P := (settle_keeps (I := Progress.Values P)
      (fun p q index rest hp _ hfollow => follow_values hmakes (p := { p with pending := rest })
        ⟨hp.frames, hp.events⟩ hfollow) hstart hrun).1
    rw [hanalysis]
    refine ⟨fun event hevent => hlast.events event (List.mem_reverse.1 hevent), fun frame hframe => ?_⟩
    obtain ⟨index, hindex⟩ := Array.mem_iff_getElem?.1 hframe
    exact hlast.frames index frame (Option.join_eq_some_iff.2 hindex)

end Analysis

end Values

namespace Expr

/-- The instructions that made a value or a part of it. -/
def makers : Expr → List Nat
  | var o | const o _ => o.makers
  | add o left right | mul o left right => o.makers ++ (left.makers ++ right.makers)

/-- Every instruction that made a value or a part of it satisfies the condition. -/
def MadeBy (real : Nat → Prop) (e : Expr) : Prop :=
  ∀ index ∈ e.makers, real index

variable {real : Nat → Prop} {e e' left right : Expr} {o : Origin}

theorem origin_subset (e : Expr) : e.origin.makers ⊆ e.makers := by
  cases e <;> simp [origin, makers]

theorem madeBy_mul : (mul o left right).MadeBy real ↔
    (∀ index ∈ o.makers, real index) ∧ left.MadeBy real ∧ right.MadeBy real := by
  simp only [MadeBy, makers, List.mem_append, or_imp, forall_and]

theorem madeBy_add : (add o left right).MadeBy real ↔
    (∀ index ∈ o.makers, real index) ∧ left.MadeBy real ∧ right.MadeBy real := by
  simp only [MadeBy, makers, List.mem_append, or_imp, forall_and]

theorem MadeBy.forgetForm (h : e.MadeBy real) (h' : e'.MadeBy real) : (forgetForm e e').MadeBy real := by
  intro index hindex
  rcases (Origin.mem_merge_makers _ _ index).1 hindex with hmem | hmem
  · exact h index (origin_subset e hmem)
  · exact h' index (origin_subset e' hmem)

/-- Joining values adds no maker. -/
theorem MadeBy.joined {joined : Expr} (hjoined : Joined e e' joined) (h : e.MadeBy real) (h' : e'.MadeBy real) :
    joined.MadeBy real := by
  induction hjoined with
  | same e => exact h
  | mulLeft _ _ ih =>
      rw [madeBy_mul] at h h' ⊢
      exact ⟨h.1, h.2.1, ih h.2.2 h'.2.2⟩
  | mulRight _ _ ih =>
      rw [madeBy_mul] at h h' ⊢
      exact ⟨h.1, ih h.2.1 h'.2.1, h.2.2⟩
  | addLeft _ _ ih =>
      rw [madeBy_add] at h h' ⊢
      exact ⟨h.1, h.2.1, ih h.2.2 h'.2.2⟩
  | addRight _ _ ih =>
      rw [madeBy_add] at h h' ⊢
      exact ⟨h.1, ih h.2.1 h'.2.1, h.2.2⟩
  | forget e e' => exact h.forgetForm h'

theorem MadeBy.merge (h : e.MadeBy real) (h' : e'.MadeBy real) : (e.merge e').MadeBy real :=
  MadeBy.joined (joined_merge e e') h h'

theorem MadeBy.combine (ho : ∀ index ∈ o.makers, real index) (instr : Instr) (hleft : left.MadeBy real)
    (hright : right.MadeBy real) : (combine o instr left right).MadeBy real := by
  unfold Expr.combine
  repeat' split
  · exact ho
  · exact madeBy_mul.2 ⟨ho, hleft, hright⟩
  · exact ho
  · exact madeBy_add.2 ⟨ho, hleft, hright⟩
  · exact ho
  · exact ho

end Expr

/-- The values that an instruction makes are made by it and by what made its operands. -/
theorem Domain.exprs_makes {real : Nat → Prop} {index : Nat} (hreal : real index) (instr : Instr) :
    Domain.exprs.Makes (Expr.MadeBy real) index instr := by
  have hmaker : ∀ {size : Nat}, ∀ other ∈ (Origin.mk size [index]).makers, real other :=
    fun other hother => List.mem_singleton.1 hother ▸ hreal
  refine ⟨fun _ => nofun, fun kind => ?_, fun _ _ => hmaker, fun _ => hmaker, fun a b kind ha hb => ?_⟩
  · simp only [Domain.exprs]
    split <;> exact hmaker
  · exact Expr.MadeBy.combine hmaker instr ha hb

namespace Products

open Unscramble.Expr (madeBy_mul madeBy_add isProduct)

variable {real : Nat → Prop} {products : Products} {e e' product : Expr}

/-- The products that were noted were made by instructions that satisfy the condition. -/
def MadeBy (real : Nat → Prop) (products : Products) : Prop :=
  ∀ entry ∈ products, entry.2.MadeBy real

theorem MadeBy.record (h : products.MadeBy real) (index : Nat) (hproduct : product.MadeBy real) :
    MadeBy real (products.record index product) := by
  induction products with
  | nil => exact List.forall_mem_singleton.2 hproduct
  | cons entry rest ih =>
      obtain ⟨hentry, hrest⟩ := List.forall_mem_cons.1 h
      rw [Products.record]
      split
      · exact List.forall_mem_cons.2 ⟨hproduct, hrest⟩
      · exact List.forall_mem_cons.2 ⟨hentry, ih hrest⟩

theorem MadeBy.forget (h : products.MadeBy real) (e : Expr) : MadeBy real (products.forget e) := by
  unfold Products.forget
  split
  · split
    · exact fun entry hentry => h entry (List.mem_filter.1 hentry).1
    · exact h
  · exact h

theorem MadeBy.recordMerged (h : products.MadeBy real) (hproduct : product.MadeBy real) :
    MadeBy real (products.recordMerged product) := by
  unfold Products.recordMerged
  split
  · exact h.record _ hproduct
  · exact h

theorem MadeBy.afterMerge (h : products.MadeBy real) (he : e.MadeBy real) (he' : e'.MadeBy real) :
    MadeBy real (products.afterMerge e e') := by
  fun_induction Products.afterMerge e e' products with
  | case2 products o a b o' a' b' _ _ _ ih =>
      rw [madeBy_mul] at he he'
      exact (ih h he.2.2 he'.2.2).recordMerged (madeBy_mul.2 ⟨he.1, he.2.1, he.2.2.merge he'.2.2⟩)
  | case3 products o a b o' a' b' _ _ _ _ ih =>
      rw [madeBy_mul] at he he'
      exact (ih h he.2.1 he'.2.1).recordMerged (madeBy_mul.2 ⟨he.1, he.2.1.merge he'.2.1, he.2.2⟩)
  | case7 products o a b o' a' b' _ _ _ ih =>
      rw [madeBy_add] at he he'
      exact ih h he.2.2 he'.2.2
  | case8 products o a b o' a' b' _ _ _ _ ih =>
      rw [madeBy_add] at he he'
      exact ih h he.2.1 he'.2.1
  | case4 | case5 | case12 => exact (h.forget _).forget _
  | case1 | case6 | case9 | case10 | case11 => exact h

theorem MadeBy.afterEvent {code : Array Instr} {event : Event Expr}
    (hreal : ∀ index instr, code[index]? = some instr → isProduct instr → real index) (h : products.MadeBy real)
    (hevent : event.Good (Expr.MadeBy real)) : MadeBy real (products.afterEvent code event) := by
  cases event with
  | step index before =>
      simp only [Products.afterEvent]
      split
      · next instr right left rest hinstr hstack =>
          have hoperands := hevent.2
          rw [hstack, List.forall_mem_cons, List.forall_mem_cons] at hoperands
          split
          · next hproduct =>
              simp only [Bool.and_eq_true] at hproduct
              have hindex := hreal index instr hinstr hproduct.1.1
              exact h.record index (madeBy_mul.2 ⟨fun other hother => List.mem_singleton.1 hother ▸ hindex,
                hoperands.2.1, hoperands.1⟩)
          · exact h
      · exact h
  | edge source target => exact h
  | join present arriving =>
      have hpairs : ∀ pair ∈ present.joins arriving, pair.1.MadeBy real ∧ pair.2.MadeBy real := by
        intro pair hpair
        simp only [Frame.joins, List.mem_append, List.mem_reverse] at hpair
        rcases hpair with hpair | hpair
        · exact ⟨hevent.1.1 _ (List.of_mem_zip hpair).1, hevent.2.1 _ (List.of_mem_zip hpair).2⟩
        · exact ⟨hevent.1.2 _ (List.of_mem_zip hpair).1, hevent.2.2 _ (List.of_mem_zip hpair).2⟩
      simp only [Products.afterEvent]
      generalize present.joins arriving = pairs at hpairs
      induction pairs generalizing products with
      | nil => exact h
      | cons pair rest ih =>
          obtain ⟨hpair, hrest⟩ := List.forall_mem_cons.1 hpairs
          exact ih (h.afterMerge hpair.1 hpair.2) hrest

theorem keep_subset (kept : List Expr) (entry : Nat × Expr) : outermost.keep kept entry ⊆ entry.2 :: kept := by
  obtain ⟨index, e⟩ := entry
  unfold outermost.keep
  dsimp only
  split
  · exact List.subset_cons_self _ _
  · refine List.cons_subset_cons e ?_
    repeat' split
    all_goals grind

theorem MadeBy.outermost (h : products.MadeBy real) : ∀ product ∈ products.outermost, product.MadeBy real := by
  have hkept : ∀ kept : List Expr, (∀ e ∈ kept, e.MadeBy real) →
      ∀ e ∈ products.foldl outermost.keep kept, e.MadeBy real := by
    induction products with
    | nil => exact fun kept hkept => hkept
    | cons entry rest ih =>
        obtain ⟨hentry, hrest⟩ := List.forall_mem_cons.1 h
        intro kept hkept
        refine ih hrest _ fun e he => ?_
        rcases List.mem_cons.1 (keep_subset kept entry he) with rfl | he
        · exact hentry
        · exact hkept e he
  exact fun product hproduct => hkept [] nofun product (List.mem_reverse.1 hproduct)

end Products

namespace Multiplier.Fold

variable {m m' : MethodDecl} {code : List Instr} {real : Nat → Prop}

/-- No label stands at an index. -/
def NoLabelAt (code : List Instr) (index : Nat) : Prop :=
  ∀ l, code[index]? ≠ some (.label l)

theorem mem_partOf {o : Origin} {part part' : Part} {index : Nat} (h : (index, part') ∈ partOf o part) :
    index ∈ o.makers := by
  obtain ⟨maker, hmaker, heq⟩ := Option.map_eq_some_iff.1 (Option.mem_toList.1 h)
  obtain ⟨rfl, -⟩ := Prod.mk.inj heq
  unfold Origin.maker? at hmaker
  split at hmaker
  · next hmakers => simp_all
  · cases hmaker

theorem mem_ofVar {o c : Origin} {value factor : Number} {part : Part} {index : Nat}
    (h : (index, part) ∈ parts.ofVar o c value factor) : index ∈ o.makers ++ c.makers := by
  unfold parts.ofVar at h
  split at h
  all_goals
    rcases List.mem_append.1 h with h | h
    · exact List.mem_append_left _ (mem_partOf h)
    · exact List.mem_append_right _ (mem_partOf h)

/-- The parts of a product are instructions that made it or a part of it. -/
theorem mem_parts {e : Expr} {factor : Number} {part : Part} {index : Nat} (h : (index, part) ∈ parts e factor) :
    index ∈ e.makers := by
  fun_induction parts e factor with
  | case1 o value factor => exact mem_partOf h
  | case2 o left right factor ihleft ihright =>
      simp only [List.mem_append] at h
      simp only [Expr.makers, List.mem_append]
      exact h.imp mem_partOf (Or.imp ihleft ihright)
  | case3 o c value right factor =>
      simp only [Expr.makers, List.mem_append]
      exact (List.mem_append.1 (mem_ofVar h)).imp_right .inl
  | case4 o c value right factor _ ih =>
      simp only [List.mem_append] at h
      simp only [Expr.makers, List.mem_append]
      exact h.imp mem_partOf (Or.imp mem_partOf ih)
  | case5 o left c value factor =>
      simp only [Expr.makers, List.mem_append]
      exact (List.mem_append.1 (mem_ofVar h)).imp_right .inr
  | case6 o left c value factor _ _ ih =>
      simp only [List.mem_append] at h
      simp only [Expr.makers, List.mem_append]
      exact h.imp mem_partOf fun h => (h.imp mem_partOf ih).symm
  | case7 | case8 => cases h

theorem push_plain (n : Number) : (Instr.push n).label? = none ∧ (Instr.push n).targets = [] := by
  cases n with
  | int value =>
      simp only [Instr.push, Instr.pushInt]
      repeat' split
      all_goals exact ⟨rfl, rfl⟩
  | long value =>
      simp only [Instr.push, Instr.pushLong]
      repeat' split
      all_goals exact ⟨rfl, rfl⟩

theorem change_plain {part : Part} {instr : Instr} (h : part.change? = some (some instr)) :
    instr.label? = none ∧ instr.targets = [] := by
  cases part with
  | constant value factor => exact Option.some.inj (Option.some.inj h) ▸ push_plain _
  | _ => cases h

/-- Changing what made a product changes no label and puts in no jump. -/
theorem applyEdits_spec {edits : Edits} {known : List (Nat × Part)} (hadds : Adds known {} edits)
    (hknown : ∀ entry ∈ known, NoLabelAt code entry.1) :
    labelsIn (applyEdits edits code) = labelsIn code ∧
      ∀ instr ∈ applyEdits edits code, instr ∈ code ∨ instr.targets = [] := by
  have hpart : ∀ {index change}, edits[index]? = some change →
      ∃ part, (index, part) ∈ known ∧ part.change? = some change := by
    intro index change hchange
    exact ((hadds index change).1 hchange).resolve_right (by simp)
  constructor
  · have hcode : labelsIn code = code.zipIdx.filterMap fun entry => entry.1.label? := by
      conv_lhs => rw [← List.zipIdx_map_fst 0 code, labelsIn, List.filterMap_map]
      rfl
    rw [hcode, labelsIn, applyEdits, List.filterMap_filterMap]
    refine List.filterMap_congr ?_
    rintro ⟨instr, index⟩ hmem
    have hinstr := List.mem_zipIdx_iff_getElem?.1 hmem
    dsimp only
    split
    · next change hchange =>
        obtain ⟨part, hmem, hpart⟩ := hpart hchange
        have hold : instr.label? = none := by
          cases hlabel : instr.label? with
          | none => rfl
          | some l => exact absurd (hinstr.trans (congrArg some (Instr.label?_eq_some.1 hlabel))) (hknown _ hmem l)
        cases change with
        | none => exact hold.symm
        | some new => exact (change_plain hpart).1.trans hold.symm
    · rfl
  · intro instr hinstr
    obtain ⟨⟨old, index⟩, hmem, hnew⟩ := List.mem_filterMap.1 hinstr
    dsimp only at hnew
    split at hnew
    · next change hchange =>
        obtain ⟨part, -, hpart⟩ := hpart hchange
        exact .inr (change_plain (hnew ▸ hpart)).2
    · exact .inl (Option.some.inj hnew ▸ List.fst_mem_of_mem_zipIdx hmem)

/-- A label has no effect, so only other instructions make values. -/
theorem exprs_makesAlong {flow : Flow} (hflow : Flow.ofMethod m = .ok flow) :
    Domain.exprs.MakesAlong (Expr.MadeBy (NoLabelAt m.code)) flow where
  fresh _ := nofun
  merge _ _ ha hb := ha.merge hb
  instrs index instr effect hcode hnop := by
    refine Domain.exprs_makes (fun l hl => hnop ?_) instr
    obtain ⟨effect', hcode', heffect⟩ := (Flow.ofMethod_describes hflow).exists_effect hl
    obtain ⟨rfl, rfl⟩ := Prod.mk.inj (Option.some.inj (hcode.symm.trans hcode'))
    exact (Except.ok.inj heffect).symm

theorem constantProducts_madeBy {frames : Array (Option (Frame Expr))}
    (h : (analyze Domain.exprs m).result = .ok frames) :
    ∀ product ∈ (analyze Domain.exprs m).constantProducts m.code, product.MadeBy (NoLabelAt m.code) := by
  obtain ⟨htrace, -⟩ := Analysis.analyze_values (fun flow hflow => exprs_makesAlong hflow) h
  have hreal : ∀ index instr, m.code.toArray[index]? = some instr → Expr.isProduct instr →
      NoLabelAt m.code index := by
    intro index instr hinstr hproduct l hl
    rw [List.getElem?_toArray, hl] at hinstr
    cases hinstr
    cases hproduct
  rw [Analysis.constantProducts]
  generalize (analyze Domain.exprs m).trace = trace at htrace
  refine Products.MadeBy.outermost ?_
  suffices hfold : ∀ products : Products, products.MadeBy (NoLabelAt m.code) →
      Products.MadeBy (NoLabelAt m.code) (trace.foldl (Products.afterEvent m.code.toArray) products) from hfold [] nofun
  induction trace with
  | nil => exact fun products hproducts => hproducts
  | cons event rest ih =>
      obtain ⟨hevent, hrest⟩ := List.forall_mem_cons.1 htrace
      exact fun products hproducts => ih hrest _ (hproducts.afterEvent hreal hevent)

theorem real_of_mem_allParts {products : List Expr} (h : ∀ product ∈ products, product.MadeBy real) :
    ∀ entry ∈ allParts code.toArray products, real entry.1 := by
  rintro ⟨index, part⟩ hentry
  obtain ⟨product, hproduct, hentry⟩ := List.mem_flatMap.1 hentry
  cases hunit : unit? code.toArray product with
  | none => simp [hunit] at hentry
  | some factor =>
      rw [hunit] at hentry
      exact h product hproduct index (mem_parts hentry)

/-- Folding multiplications keeps all labels and uses no others. -/
theorem labelsClosed_fold {log log' : Log} {count : Nat} (hm : m.LabelsClosed)
    (h : fold m log = .ok (m', count) log') : m'.LabelsClosed := by
  rcases fold_eq_ok h with ⟨-, rfl⟩ | ⟨frames, edits, hframes, hedits, rfl⟩
  · exact hm
  · obtain ⟨hlabels, hmem⟩ := applyEdits_spec (foldlM_adds hedits)
      (real_of_mem_allParts (constantProducts_madeBy hframes))
    refine hm.withCode (.of_eq hlabels) fun instr hinstr l hl => ?_
    rcases hmem instr hinstr with hcode | htargets
    · exact ⟨instr, hcode, hl⟩
    · rw [htargets] at hl
      cases hl

end Multiplier.Fold

end Unscramble
