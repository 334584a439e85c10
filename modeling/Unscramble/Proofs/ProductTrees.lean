/-
The shape of the expressions that the symbolic domain builds, and what follows for folding.  Every product has
a constant side, and a sum is made of constants and products, so that a factor finds a constant to go into
wherever it is moved.  As long as every node has an instruction of its own, none is changed twice.
-/
import Mathlib.Data.List.Nodup
import Unscramble.Proofs.DomainLaws
import Unscramble.Proofs.FoldParts
import Unscramble.Proofs.Makers

namespace Unscramble

namespace Expr

/-- The nodes of an expression that are no variables. -/
def operations : Expr → List Expr
  | var _ => []
  | const o n => [const o n]
  | add o left right => add o left right :: (left.operations ++ right.operations)
  | mul o left right => mul o left right :: (left.operations ++ right.operations)

/-- Whether the constants are of a kind, every product has a constant side, and the sides of every sum are
constants or products. -/
def isBuilt (kind : Kind) : Expr → Bool
  | var _ => true
  | const _ n => n.kind == kind
  | add _ left right =>
      (left.isConstOrMul && right.isConstOrMul) && (left.isBuilt kind && right.isBuilt kind)
  | mul _ left right =>
      (left.isConst || right.isConst) && (left.isBuilt kind && right.isBuilt kind)

/-- Every node but the variables is made by one instruction, and no two by the same. -/
structure HasOwnMakers (e : Expr) : Prop where
  single : ∀ node ∈ e.operations, node.maker?.isSome
  distinct : (e.operations.map maker?).Nodup

variable {kind : Kind} {e left right : Expr} {o : Origin}

theorem exists_const (h : e.isConst) : ∃ c n, e = const c n := by
  cases e with
  | const c n => exact ⟨c, n, rfl⟩
  | _ => cases h

theorem isVar_of_isConstOrMul (h : e.isConstOrMul) : e.isVar = false := by
  cases e with
  | var o => cases h
  | _ => rfl

theorem isBuilt_const {n : Number} : (const o n).isBuilt kind ↔ n.kind = kind := by
  rw [isBuilt, beq_iff_eq]

theorem isBuilt_add : (add o left right).isBuilt kind ↔
    (left.isConstOrMul ∧ right.isConstOrMul) ∧ left.isBuilt kind ∧ right.isBuilt kind := by
  simp only [isBuilt, Bool.and_eq_true]

theorem isBuilt_mul : (mul o left right).isBuilt kind ↔
    (left.isConst ∨ right.isConst) ∧ left.isBuilt kind ∧ right.isBuilt kind := by
  simp only [isBuilt, Bool.and_eq_true, Bool.or_eq_true]

/-- The result of an instruction with two operands is built when they are. -/
theorem isBuilt_combine (hleft : left.isBuilt kind) (hright : right.isBuilt kind) (origin : Origin)
    (instr : Instr) : (combine origin instr left right).isBuilt kind := by
  unfold combine
  split_ifs with hsame hproduct hconst hsum hsides
  · rfl
  · rw [Bool.or_eq_true] at hconst
    exact isBuilt_mul.2 ⟨hconst, hleft, hright⟩
  · rfl
  · rw [Bool.and_eq_true] at hsides
    exact isBuilt_add.2 ⟨hsides, hleft, hright⟩
  · rfl
  · rfl

/-- Two values that are built are also built when they are joined. -/
theorem isBuilt_merge {e' : Expr} (h : e.isBuilt kind) (h' : e'.isBuilt kind) : (merge e e').isBuilt kind := by
  fun_induction merge e e' with
  | case1 | case6 | case13 => exact h
  | case2 o a b o' a' b' _ _ hequal ih =>
      obtain ⟨-, ha, hb⟩ := isBuilt_mul.1 h
      exact isBuilt_mul.2 ⟨.inl hequal.2, ha, ih hb (isBuilt_mul.1 h').2.2⟩
  | case3 o a b o' a' b' _ _ _ hequal ih =>
      obtain ⟨-, ha, hb⟩ := isBuilt_mul.1 h
      exact isBuilt_mul.2 ⟨.inr hequal.2, ih ha (isBuilt_mul.1 h').2.1, hb⟩
  | case7 o a b o' a' b' _ _ hequal merged hmerged ih =>
      obtain ⟨hsides, ha, hb⟩ := isBuilt_add.1 h
      exact isBuilt_add.2 ⟨⟨hsides.1, hmerged⟩, ha, ih hb (isBuilt_add.1 h').2.2⟩
  | case9 o a b o' a' b' _ _ _ hequal merged hmerged ih =>
      obtain ⟨hsides, ha, hb⟩ := isBuilt_add.1 h
      exact isBuilt_add.2 ⟨⟨hmerged, hsides.2⟩, ih ha (isBuilt_add.1 h').2.1, hb⟩
  | _ => rfl

end Expr

section Frames

variable {m : MethodDecl} {kind : Kind}

theorem exprs_builds {flow : Flow} (hflow : Flow.ofMethod m = .ok flow)
    (hkind : ∀ instr ∈ m.code, ∀ n, Expr.constant? instr = some n → n.kind = kind) :
    Domain.exprs.MakesAlong (fun e => e.isBuilt kind) flow where
  fresh _ := rfl
  merge _ _ ha hb := Expr.isBuilt_merge ha hb
  instrs index instr effect hcode _ := by
    have hinstr : instr ∈ m.code := List.mem_of_getElem? ((Flow.ofMethod_describes hflow).getElem?_code hcode)
    refine ⟨fun _ => rfl, fun result => ?_, fun _ _ => rfl, fun _ => rfl, fun a b result ha hb => ?_⟩
    · simp only [Domain.exprs]
      split
      · next n hn => exact Expr.isBuilt_const.2 (hkind instr hinstr n hn)
      · rfl
    · exact Expr.isBuilt_combine ha hb _ instr

/-- Where all constants that are followed are of one kind, the frames of an analysis hold nothing but expressions that
are built. -/
theorem analyze_isBuilt {frames : Array (Option (Frame Expr))}
    (hkind : ∀ instr ∈ m.code, ∀ n, Expr.constant? instr = some n → n.kind = kind)
    (h : (analyze Domain.exprs m).result = .ok frames) :
    ∀ frame, some frame ∈ frames → frame.Good fun e => e.isBuilt kind :=
  (Analysis.analyze_values (fun _ hflow => exprs_builds hflow hkind) h).2

end Frames

namespace Multiplier.Fold

section Makers

variable {kind : Kind} {e other : Expr} {o c : Origin} {value factor : Number}

theorem parts_mul_left :
    parts (.mul o (.const c value) other) factor = partsOfProduct o c value factor other := by
  rw [parts]
  rfl

theorem parts_mul_right (h : other.isConst = false) :
    parts (.mul o other (.const c value)) factor = partsOfProduct o c value factor other := by
  rw [parts]
  · rfl
  · rintro c' value' rfl
    cases h

/-- The indexes of parts, in the form in which expressions name their makers. -/
def indexes (added : List (Nat × Part)) : List (Option Nat) :=
  (added.map Prod.fst).map some

theorem indexes_append (first last : List (Nat × Part)) :
    indexes (first ++ last) = indexes first ++ indexes last := by
  rw [indexes, List.map_append, List.map_append]
  rfl

theorem partOf_of_maker {index : Nat} (h : o.maker? = some index) (part : Part) :
    partOf o part = [(index, part)] := by
  rw [partOf, h]
  rfl

theorem indexes_partOf (h : o.maker?.isSome) (part : Part) : indexes (partOf o part) = [o.maker?] := by
  obtain ⟨index, hindex⟩ := Option.isSome_iff_exists.1 h
  rw [partOf_of_maker hindex, hindex]
  rfl

theorem indexes_partsOfProduct (ho : o.maker?.isSome) (hc : c.maker?.isSome)
    (ih : other.isVar = false →
      (indexes (parts other (factor.mul value))).Perm (other.operations.map Expr.maker?)) :
    (indexes (partsOfProduct o c value factor other)).Perm
      (o.maker? :: c.maker? :: other.operations.map Expr.maker?) := by
  unfold partsOfProduct
  split
  · next hvar =>
      have hnone : other.operations = [] := by
        cases other with
        | var => rfl
        | _ => cases hvar
      rw [hnone, parts.ofVar]
      split <;> rw [indexes_append, indexes_partOf ho, indexes_partOf hc] <;> rfl
  · next hvar =>
      rw [indexes_append, indexes_append, indexes_partOf ho, indexes_partOf hc]
      exact ((ih (eq_false_of_ne_true hvar)).cons _).cons _

/-- Each node of an expression has one part. -/
theorem indexes_parts (hbuilt : e.isBuilt kind) (hvar : e.isVar = false)
    (hsingle : ∀ node ∈ e.operations, node.maker?.isSome) (factor : Number) :
    (indexes (parts e factor)).Perm (e.operations.map Expr.maker?) := by
  induction e generalizing factor with
  | var o => cases hvar
  | const o n =>
      have ho : o.maker?.isSome := hsingle _ (List.mem_singleton_self _)
      rw [parts, indexes_partOf ho]
      rfl
  | add o left right ihleft ihright =>
      rw [Expr.isBuilt_add] at hbuilt
      rw [Expr.operations, List.forall_mem_cons, List.forall_mem_append] at hsingle
      obtain ⟨ho, hleft, hright⟩ : o.maker?.isSome ∧ _ := hsingle
      rw [parts, indexes_append, indexes_append, indexes_partOf ho, Expr.operations, List.map_cons, List.map_append]
      have hperm := (ihleft hbuilt.2.1 (Expr.isVar_of_isConstOrMul hbuilt.1.1) hleft factor).append
        (ihright hbuilt.2.2 (Expr.isVar_of_isConstOrMul hbuilt.1.2) hright factor)
      exact hperm.cons _
  | mul o left right ihleft ihright =>
      rw [Expr.isBuilt_mul] at hbuilt
      rw [Expr.operations, List.forall_mem_cons, List.forall_mem_append] at hsingle
      obtain ⟨ho, hleft, hright⟩ := hsingle
      by_cases hconst : left.isConst
      · obtain ⟨c, value, rfl⟩ := Expr.exists_const hconst
        rw [parts_mul_left]
        exact indexes_partsOfProduct ho (hleft _ (List.mem_singleton_self _)) fun hother =>
          ihright hbuilt.2.2 hother hright _
      · obtain ⟨c, value, rfl⟩ := Expr.exists_const (hbuilt.1.resolve_left hconst)
        rw [parts_mul_right (eq_false_of_ne_true hconst)]
        refine (indexes_partsOfProduct ho (hright _ (List.mem_singleton_self _)) fun hother =>
          ihleft hbuilt.2.1 hother hleft _).trans ?_
        rw [Expr.operations, List.map_cons, List.map_append]
        apply List.Perm.cons
        exact (List.perm_append_singleton _ _).symm

/-- No two parts are those of the same instruction. -/
theorem nodup_parts (hbuilt : e.isBuilt kind) (hvar : e.isVar = false) (hmakers : e.HasOwnMakers)
    (factor : Number) : ((parts e factor).map Prod.fst).Nodup := by
  have hperm := indexes_parts hbuilt hvar hmakers.single factor
  exact List.Nodup.of_map some (hperm.nodup_iff.2 hmakers.distinct)

end Makers

section Success

variable {kind : Kind} {e other product : Expr} {o c : Origin} {value factor : Number} {edits edits' : Edits}
  {index : Nat}

/-- No instruction among the makers is changed yet. -/
def Free (makers : List (Option Nat)) (edits : Edits) : Prop :=
  ∀ index, some index ∈ makers → edits[index]? = none

theorem Free.mono {makers makers' : List (Option Nat)} (h : Free makers edits) (hsubset : makers' ⊆ makers) :
    Free makers' edits :=
  fun index hmem => h index (hsubset hmem)

/-- Changes for the first makers leave the last ones alone. -/
theorem Free.of_adds {first last : List (Option Nat)} {added : List (Nat × Part)}
    (hfree : Free (first ++ last) edits) (hdistinct : (first ++ last).Nodup) (hadded : indexes added ⊆ first)
    (h : Adds added edits edits') : Free last edits' := by
  intro index hindex
  rw [Option.eq_none_iff_forall_ne_some]
  intro change hchange
  rcases (h index change).1 hchange with ⟨part, hpart, -⟩ | hbefore
  · have hfirst : some index ∈ first := hadded (List.mem_map_of_mem (List.mem_map_of_mem hpart))
    exact (List.nodup_append.1 hdistinct).2.2 _ hfirst _ hindex rfl
  · rw [hfree index (List.mem_append_right _ hindex)] at hbefore
    cases hbefore

theorem edit_of_none (hnone : edits[index]? = none) (change : Option Instr) :
    edit index change edits = .ok (edits.insert index change) := by
  rw [edit, if_neg]
  simpa using hnone

theorem makerOf_of_maker? (h : e.maker? = some index) : makerOf e = .ok index := by
  rw [makerOf, h]

theorem dropFactor_isOk {productAt constantAt : Nat} (hne : productAt ≠ constantAt)
    (hproduct : edits[productAt]? = none) (hconstant : edits[constantAt]? = none) :
    ∃ edits', dropFactor productAt constantAt edits = .ok edits' := by
  have hlater : (edits.insert productAt none)[constantAt]? = none := by
    rw [Std.HashMap.getElem?_insert, if_neg (by simpa using hne), hconstant]
  exact ⟨_, bind_eq_ok.2 ⟨_, edit_of_none hproduct _, edit_of_none hlater _⟩⟩

theorem scaleVar_isOk {productAt constantAt : Nat} (hne : productAt ≠ constantAt)
    (hproduct : edits[productAt]? = none) (hconstant : edits[constantAt]? = none) (n : Number) :
    ∃ edits', scale.scaleVar productAt constantAt n edits = .ok edits' := by
  unfold scale.scaleVar
  split
  · exact dropFactor_isOk hne hproduct hconstant
  · exact ⟨_, edit_of_none hconstant _⟩

/-- A product takes a factor if its other side does. -/
theorem product_isOk (horigin : product.origin = o) (ho : o.maker?.isSome) (hc : c.maker?.isSome)
    (hdistinct : (o.maker? :: c.maker? :: other.operations.map Expr.maker?).Nodup)
    (hfree : Free (o.maker? :: c.maker? :: other.operations.map Expr.maker?) edits)
    (ih : other.isVar = false → ∀ edits, Free (other.operations.map Expr.maker?) edits →
      ∃ edits', scale other (factor.mul value) edits = .ok edits') :
    ∃ edits', (do
      let productAt ← makerOf product
      let constantAt ← makerOf (.const c value)
      if other.isVar then scale.scaleVar productAt constantAt (factor.mul value) edits
      else scale other (factor.mul value) (← dropFactor productAt constantAt edits)) = .ok edits' := by
  obtain ⟨productAt, hproductAt⟩ := Option.isSome_iff_exists.1 ho
  obtain ⟨constantAt, hconstantAt⟩ := Option.isSome_iff_exists.1 hc
  have hproduct : makerOf product = .ok productAt :=
    makerOf_of_maker? (by rw [Expr.maker?, horigin, hproductAt])
  have hconstant : makerOf (.const c value) = .ok constantAt := makerOf_of_maker? hconstantAt
  suffices h : ∃ edits', (if other.isVar then scale.scaleVar productAt constantAt (factor.mul value) edits
      else dropFactor productAt constantAt edits >>= scale other (factor.mul value)) = .ok edits' by
    obtain ⟨edits', hedits'⟩ := h
    exact ⟨edits', bind_eq_ok.2 ⟨_, hproduct, bind_eq_ok.2 ⟨_, hconstant, hedits'⟩⟩⟩
  rw [hproductAt, hconstantAt] at hdistinct hfree
  have hne : productAt ≠ constantAt := by
    rintro rfl
    exact (List.nodup_cons.1 hdistinct).1 (List.mem_cons_self ..)
  have hproduct : edits[productAt]? = none := hfree _ (List.mem_cons_self ..)
  have hconstant : edits[constantAt]? = none := hfree _ (List.mem_cons_of_mem _ (List.mem_cons_self ..))
  by_cases hvar : other.isVar
  · rw [if_pos hvar]
    exact scaleVar_isOk hne hproduct hconstant _
  · rw [if_neg hvar]
    obtain ⟨middle, hmiddle⟩ := dropFactor_isOk hne hproduct hconstant
    have hadds : Adds (partOf o (.merged value factor) ++ partOf c (.dropped value)) edits middle :=
      dropFactor_adds hproductAt hconstantAt hmiddle
    have hadded : indexes (partOf o (.merged value factor) ++ partOf c (.dropped value)) ⊆
        [some productAt, some constantAt] := by
      rw [indexes_append, indexes_partOf ho, indexes_partOf hc, hproductAt, hconstantAt]
      exact List.Subset.refl _
    have hrest : Free (other.operations.map Expr.maker?) middle :=
      Free.of_adds (show Free ([some productAt, some constantAt] ++ _) edits from hfree) hdistinct hadded hadds
    obtain ⟨edits', hedits'⟩ := ih (eq_false_of_ne_true hvar) middle hrest
    exact ⟨edits', bind_eq_ok.2 ⟨middle, hmiddle, hedits'⟩⟩

/-- An expression takes a factor if every node has an instruction of its own, and none of them is changed yet. -/
theorem scale_isOk (hbuilt : e.isBuilt kind) (hvar : e.isVar = false) (hmakers : e.HasOwnMakers)
    (hfree : Free (e.operations.map Expr.maker?) edits) (factor : Number) :
    ∃ edits', scale e factor edits = .ok edits' := by
  obtain ⟨hsingle, hdistinct⟩ := hmakers
  induction e generalizing factor edits with
  | var o => cases hvar
  | const o n =>
      obtain ⟨index, hindex⟩ := Option.isSome_iff_exists.1 (hsingle _ (List.mem_singleton_self _))
      have hnone := hfree index (List.mem_singleton.2 hindex.symm)
      exact ⟨_, bind_eq_ok.2 ⟨index, makerOf_of_maker? hindex, edit_of_none hnone _⟩⟩
  | add o left right ihleft ihright =>
      rw [Expr.isBuilt_add] at hbuilt
      rw [Expr.operations, List.forall_mem_cons, List.forall_mem_append] at hsingle
      rw [Expr.operations, List.map_cons, List.map_append] at hdistinct hfree
      have hsides := (List.nodup_cons.1 hdistinct).2
      have hfree := hfree.mono (List.subset_cons_self _ _)
      have hleft := Expr.isVar_of_isConstOrMul hbuilt.1.1
      obtain ⟨middle, hmiddle⟩ := ihleft hbuilt.2.1 hleft (hfree.mono (List.subset_append_left _ _)) factor
        hsingle.2.1 (List.nodup_append.1 hsides).1
      -- the left side changes only instructions of its own nodes, so the right side finds its own untouched
      have hadded := (indexes_parts hbuilt.2.1 hleft hsingle.2.1 factor).subset
      have hrest := hfree.of_adds hsides hadded (scale_adds hmiddle)
      obtain ⟨edits', hedits'⟩ := ihright hbuilt.2.2 (Expr.isVar_of_isConstOrMul hbuilt.1.2) hrest factor
        hsingle.2.2 (List.nodup_append.1 hsides).2.1
      exact ⟨edits', bind_eq_ok.2 ⟨middle, hmiddle, hedits'⟩⟩
  | mul o left right ihleft ihright =>
      rw [Expr.isBuilt_mul] at hbuilt
      rw [Expr.operations, List.forall_mem_cons, List.forall_mem_append] at hsingle
      rw [Expr.operations, List.map_cons, List.map_append] at hdistinct hfree
      by_cases hconst : left.isConst
      · obtain ⟨c, value, rfl⟩ := Expr.exists_const hconst
        rw [scale]
        refine product_isOk rfl hsingle.1 (hsingle.2.1 _ (List.mem_singleton_self _)) hdistinct hfree ?_
        intro hother edits hedits
        exact ihright hbuilt.2.2 hother hedits _ hsingle.2.2 (List.nodup_append.1 (List.nodup_cons.1 hdistinct).2).2.1
      · obtain ⟨c, value, rfl⟩ := Expr.exists_const (hbuilt.1.resolve_left hconst)
        have hperm : (o.maker? :: (left.operations.map Expr.maker? ++ [c.maker?])).Perm
            (o.maker? :: c.maker? :: left.operations.map Expr.maker?) :=
          (List.perm_append_singleton _ _).cons _
        rw [scale]
        · refine product_isOk rfl hsingle.1 (hsingle.2.2 _ (List.mem_singleton_self _)) (hperm.nodup_iff.1 hdistinct)
            (hfree.mono hperm.symm.subset) ?_
          intro hother edits hedits
          exact ihleft hbuilt.2.1 hother hedits _ hsingle.2.1 (List.nodup_append.1 (List.nodup_cons.1 hdistinct).2).1
        · rintro c' value' rfl
          exact hconst rfl

end Success

end Multiplier.Fold

end Unscramble
