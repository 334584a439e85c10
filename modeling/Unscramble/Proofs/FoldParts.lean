/-
What folding does to every instruction that belongs to a product: a constant is pushed multiplied or not at
all, a sum gets multiplied operands, and a multiplication stays or disappears.  From this follows what is left
of a value on the stack, and under which condition on the frames of the method every value that changes goes
only to the instruction for which it was changed.
-/
import Mathlib.Data.List.Basic
import Unscramble.Multiplier.Fold
import Unscramble.Proofs.Blocks
import Unscramble.Proofs.Results
import Unscramble.Proofs.Tables

namespace Unscramble.Multiplier.Fold

/-- What is left of a value when the multiplications are folded: nothing, or the value times a factor. -/
inductive Share where
  | gone
  | times (factor : Number)
deriving DecidableEq, Repr

/-- The part that an instruction has in a product which is folded.  The factor is that by which its value
gets multiplied. -/
inductive Part where
  /-- A constant that is pushed multiplied. -/
  | constant (value factor : Number)
  /-- A constant that is no longer pushed. -/
  | dropped (value : Number)
  /-- A sum or difference, both sides of which are multiplied. -/
  | sum (factor : Number)
  /-- A multiplication of a variable by a constant, which takes the factor. -/
  | product (factor : Number)
  /-- A multiplication by a constant that disappears, as its other side is multiplied by the constant. -/
  | merged (value factor : Number)
deriving DecidableEq, Repr

namespace Part

def share : Part → Share
  | constant _ factor | sum factor | product factor | merged _ factor => .times factor
  | dropped _ => .gone

/-- The change to the instruction, if there is one. -/
def change? : Part → Option (Option Instr)
  | constant value factor => some (some (Instr.push (factor.mul value)))
  | dropped _ | merged _ _ => some none
  | sum _ | product _ => none

/-- The value of a constant. -/
def constant? : Part → Option Number
  | constant value _ | dropped value => some value
  | _ => none

end Part

/-- The part of the instruction that made a value, if there is a single one. -/
def partOf (origin : Origin) (part : Part) : List (Nat × Part) :=
  (origin.maker?.map (·, part)).toList

/-- The parts of the instructions of an expression that is multiplied by a factor. -/
def parts : Expr → (factor : Number) → List (Nat × Part)
  | .const o value, factor => partOf o (.constant value factor)
  | .add o left right, factor =>
      partOf o (.sum factor) ++ (parts left factor ++ parts right factor)
  | .mul o (.const c value) right, factor =>
      if right.isVar then ofVar o c value factor
      else partOf o (.merged value factor) ++
        (partOf c (.dropped value) ++ parts right (factor.mul value))
  | .mul o left (.const c value), factor =>
      if left.isVar then ofVar o c value factor
      else partOf o (.merged value factor) ++
        (partOf c (.dropped value) ++ parts left (factor.mul value))
  | .mul _ _ _, _ => []
  | .var _, _ => []
where
  /-- The parts of a variable times a constant. -/
  ofVar (o c : Origin) (value factor : Number) : List (Nat × Part) :=
    if (factor.mul value).isOne then partOf o (.merged value factor) ++ partOf c (.dropped value)
    else partOf o (.product factor) ++ partOf c (.constant value factor)

/-- The factor with which the folding of a multiplication starts: 1, in its width. -/
def unit? (code : Array Instr) (product : Expr) : Option Number :=
  match (product.maker?.bind (code[·]?)).bind Instr.opcode? with
  | some Opcode.imul => some (.int 1)
  | some Opcode.lmul => some (.long 1)
  | _ => none

/-- The parts of all instructions in the products of a method. -/
def allParts (code : Array Instr) (products : List Expr) : List (Nat × Part) :=
  products.flatMap fun product => ((unit? code product).map (parts product)).getD []

section Edits

/-- The change at an index comes from a part, or it was there before. -/
def Adds (added : List (Nat × Part)) (before after : Edits) : Prop :=
  ∀ index change, after[index]? = some change ↔
    (∃ part, (index, part) ∈ added ∧ part.change? = some change) ∨ before[index]? = some change

variable {edits edits' edits'' : Edits} {index : Nat}

theorem Adds.nil (edits : Edits) : Adds [] edits edits := by
  intro index change
  simp

theorem Adds.append {first last : List (Nat × Part)} (h : Adds first edits edits')
    (h' : Adds last edits' edits'') : Adds (first ++ last) edits edits'' := by
  intro index change
  rw [h' index change, h index change]
  constructor
  · rintro (⟨part, hmem, hchange⟩ | ⟨part, hmem, hchange⟩ | hbefore)
    · exact .inl ⟨part, List.mem_append_right _ hmem, hchange⟩
    · exact .inl ⟨part, List.mem_append_left _ hmem, hchange⟩
    · exact .inr hbefore
  · rintro (⟨part, hmem, hchange⟩ | hbefore)
    · rcases List.mem_append.1 hmem with hmem | hmem
      · exact .inr (.inl ⟨part, hmem, hchange⟩)
      · exact .inl ⟨part, hmem, hchange⟩
    · exact .inr (.inr hbefore)

/-- A part without a change adds nothing. -/
theorem Adds.cons_unchanged {added : List (Nat × Part)} {origin : Origin} {part : Part}
    (hpart : part.change? = none) (h : Adds added edits edits') :
    Adds (partOf origin part ++ added) edits edits' := by
  refine Adds.append ?_ h
  intro index change
  constructor
  · exact .inr
  · rintro (⟨other, hmem, hchange⟩ | hbefore)
    · obtain ⟨maker, -, heq⟩ := Option.map_eq_some_iff.1 (Option.mem_toList.1 hmem)
      rw [← (Prod.mk.inj heq).2, hpart] at hchange
      cases hchange
    · exact hbefore

theorem edit_adds {change : Option Instr} {part : Part} {origin : Origin}
    (hmaker : origin.maker? = some index) (hpart : part.change? = some change)
    (h : edit index change edits = .ok edits') : Adds (partOf origin part) edits edits' := by
  unfold edit at h
  split at h
  · cases h
  · next hnew =>
      obtain rfl := Except.ok.inj h
      intro other change'
      have hnone : edits[index]? = none := by
        apply Std.HashMap.getElem?_eq_none
        simpa using hnew
      rw [Std.HashMap.getElem?_insert, partOf, hmaker]
      by_cases heq : index = other
      · subst heq
        simp [hpart, hnone]
      · simp [heq, Ne.symm heq]

theorem makerOf_eq_ok {e : Expr} (h : makerOf e = .ok index) : e.origin.maker? = some index := by
  unfold makerOf at h
  split at h
  · next maker hmaker => rw [← Except.ok.inj h]; exact hmaker
  · cases h

theorem dropFactor_adds {productAt constantAt : Nat} {o c : Origin} {value factor : Number}
    (hproduct : o.maker? = some productAt) (hconstant : c.maker? = some constantAt)
    (h : dropFactor productAt constantAt edits = .ok edits') :
    Adds (partOf o (.merged value factor) ++ partOf c (.dropped value)) edits edits' := by
  obtain ⟨middle, hfirst, hlast⟩ := bind_eq_ok.1 h
  exact (edit_adds hproduct rfl hfirst).append (edit_adds hconstant rfl hlast)

theorem scaleVar_adds {productAt constantAt : Nat} {o c : Origin} {value factor : Number}
    (hproduct : o.maker? = some productAt) (hconstant : c.maker? = some constantAt)
    (h : scale.scaleVar productAt constantAt (factor.mul value) edits = .ok edits') :
    Adds (parts.ofVar o c value factor) edits edits' := by
  unfold scale.scaleVar at h
  unfold parts.ofVar
  split at h
  · next hone =>
      rw [if_pos hone]
      exact dropFactor_adds hproduct hconstant h
  · next hone =>
      rw [if_neg hone]
      exact Adds.cons_unchanged rfl (edit_adds hconstant rfl h)

/-- The parts of a constant times another expression. -/
def partsOfProduct (o c : Origin) (value factor : Number) (other : Expr) : List (Nat × Part) :=
  if other.isVar then parts.ofVar o c value factor
  else partOf o (.merged value factor) ++
    (partOf c (.dropped value) ++ parts other (factor.mul value))

theorem product_adds {o c : Origin} {value factor : Number} {product other : Expr}
    (horigin : product.origin = o)
    (ih : ∀ (edits : Edits) {edits' : Edits}, scale other (factor.mul value) edits = .ok edits' →
      Adds (parts other (factor.mul value)) edits edits')
    (h : (do
      let productAt ← makerOf product
      let constantAt ← makerOf (.const c value)
      if other.isVar then scale.scaleVar productAt constantAt (factor.mul value) edits
      else scale other (factor.mul value) (← dropFactor productAt constantAt edits)) = .ok edits') :
    Adds (partsOfProduct o c value factor other) edits edits' := by
  obtain ⟨productAt, hproduct, h⟩ := bind_eq_ok.1 h
  obtain ⟨constantAt, hconstant, h⟩ := bind_eq_ok.1 h
  have hproduct := makerOf_eq_ok hproduct
  have hconstant := makerOf_eq_ok hconstant
  rw [horigin] at hproduct
  unfold partsOfProduct
  split at h
  · next hvar =>
      rw [if_pos hvar]
      exact scaleVar_adds hproduct hconstant h
  · next hvar =>
      rw [if_neg hvar, ← List.append_assoc]
      obtain ⟨middle, hdrop, h⟩ := bind_eq_ok.1 h
      exact (dropFactor_adds hproduct hconstant hdrop).append (ih middle h)

/-- Scaling an expression changes the instructions of its parts and no others. -/
theorem scale_adds {e : Expr} {factor : Number} (h : scale e factor edits = .ok edits') :
    Adds (parts e factor) edits edits' := by
  fun_induction scale e factor edits generalizing edits' with
  | case1 o value factor edits =>
      obtain ⟨index, hindex, h⟩ := bind_eq_ok.1 h
      exact edit_adds (makerOf_eq_ok hindex) rfl h
  | case2 o left right factor edits ihleft ihright =>
      obtain ⟨middle, hleft, hright⟩ := bind_eq_ok.1 h
      exact Adds.cons_unchanged rfl ((ihleft hleft).append (ihright middle hright))
  | case3 o c value right factor edits ih =>
      rw [parts]
      exact product_adds rfl ih h
  | case4 o left c value factor edits hleft ih =>
      rw [parts]
      · exact product_adds rfl ih h
      · exact hleft
  | case5 | case6 => cases h

theorem foldProduct_adds {code : Array Instr} {product : Expr}
    (h : foldProduct code edits product = .ok edits') :
    Adds (((unit? code product).map (parts product)).getD []) edits edits' := by
  obtain ⟨index, hindex, h⟩ := bind_eq_ok.1 h
  have hmaker : product.maker? = some index := makerOf_eq_ok hindex
  rw [unit?, hmaker, Option.bind_some]
  generalize (code[index]?).bind Instr.opcode? = op at h ⊢
  split at h
  · exact scale_adds h
  · exact scale_adds h
  · cases h

/-- Folding changes the instructions that are parts of the products, and no others. -/
theorem foldlM_adds {code : Array Instr} {products : List Expr}
    (h : products.foldlM (foldProduct code) edits = .ok edits') :
    Adds (allParts code products) edits edits' := by
  induction products generalizing edits with
  | nil =>
      obtain rfl := Except.ok.inj h
      exact Adds.nil edits
  | cons product rest ih =>
      rw [List.foldlM_cons] at h
      obtain ⟨middle, hproduct, h⟩ := bind_eq_ok.1 h
      rw [allParts, List.flatMap_cons]
      exact (foldProduct_adds hproduct).append (ih h)

/-- The change to an instruction is that of its part. -/
theorem getElem?_edits {known : List (Nat × Part)} (hdistinct : (known.map Prod.fst).Nodup)
    (h : Adds known {} edits) (index : Nat) :
    edits[index]? = (known.lookup index).bind Part.change? := by
  apply Option.ext
  intro change
  have hbefore : (∅ : Edits)[index]? ≠ some change := by simp
  rw [h index change, Option.bind_eq_some_iff]
  constructor
  · rintro (⟨part, hmem, hchange⟩ | hold)
    · exact ⟨part, (lookup_eq_some_iff_mem hdistinct).2 hmem, hchange⟩
    · exact absurd hold hbefore
  · rintro ⟨part, hlookup, hchange⟩
    exact .inl ⟨part, (lookup_eq_some_iff_mem hdistinct).1 hlookup, hchange⟩

end Edits

/-- What becomes of an instruction. -/
def block (known : List (Nat × Part)) (p : Instr × Nat) : List Instr :=
  match (known.lookup p.2).bind Part.change? with
  | some change => change.toList
  | none => [p.1]

/-- The blocks that the instructions become. -/
def blocks (known : List (Nat × Part)) (code : List Instr) : List (List Instr) :=
  code.zipIdx.map (block known)

theorem applyEdits_eq {known : List (Nat × Part)} {edits : Edits}
    (hdistinct : (known.map Prod.fst).Nodup) (h : Adds known {} edits) (code : List Instr) :
    applyEdits edits code = (blocks known code).flatten := by
  rw [applyEdits, blocks, ← List.flatMap_def, List.filterMap_eq_flatMap_toList]
  congr 1
  funext p
  obtain ⟨instr, index⟩ := p
  simp only [block, getElem?_edits hdistinct h]
  cases (known.lookup index).bind Part.change? <;> rfl

/-- A method that cannot be analysed is left as it is; in any other, the changes for its products are made. -/
theorem fold_eq_ok {m m' : MethodDecl} {count : Nat} {log log' : Log} (h : fold m log = .ok (m', count) log') :
    (∃ reason, (analyze Domain.exprs m).result = .error reason) ∧ m' = m ∨
    ∃ frames edits, (analyze Domain.exprs m).result = .ok frames ∧
      ((analyze Domain.exprs m).constantProducts m.code).foldlM (foldProduct m.code.toArray) ∅ = .ok edits ∧
      m' = { m with code := applyEdits edits m.code } := by
  unfold fold at h
  cases hframes : (analyze Domain.exprs m).result with
  | error reason =>
      simp only [hframes] at h
      cases h
      exact .inl ⟨⟨reason, rfl⟩, rfl⟩
  | ok frames =>
      simp only [hframes] at h
      cases hedits : ((analyze Domain.exprs m).constantProducts m.code).foldlM (foldProduct m.code.toArray) {} with
      | error reason =>
          rw [hedits] at h
          cases h
      | ok edits =>
          rw [hedits] at h
          cases h
          exact .inr ⟨frames, edits, rfl, rfl, rfl⟩

section Condition

variable (known : List (Nat × Part))

/-- The part of the instruction that made a value, if it has one. -/
def partOf? (e : Expr) : Option Part :=
  e.maker?.bind (known.lookup ·)

/-- What is left of a value; `none` when no part of a product made it. -/
def shareOf (e : Expr) : Option Share :=
  (partOf? known e).map Part.share

/-- Whether a value stays as it is. -/
def isPlain (e : Expr) : Bool :=
  match shareOf known e with
  | none => true
  | some .gone => false
  | some (.times n) => n.isOne

/-- Whether the instruction is one that can have the part. -/
def Part.isMadeBy (instr : Instr) : Part → Bool
  | constant value factor => Expr.constant? instr == some value && value.kind == factor.kind
  | dropped value => Expr.constant? instr == some value
  | sum _ => Expr.isSum instr
  | product _ => Expr.isProduct instr
  | merged value factor => Expr.isProduct instr && value.kind == factor.kind

/-- Whether a value is a constant that is no longer pushed. -/
def isDropped (value : Number) (e : Expr) : Bool :=
  partOf? known e == some (.dropped value)

/-- Whether a value is multiplied by a factor. -/
def carries (factor : Number) (e : Expr) : Bool :=
  shareOf known e == some (.times factor) || factor.isOne && isPlain known e

/-- Whether the operands on the stack are those from which the share of the part follows. -/
def Part.follows : Part → List Expr → Bool
  | constant _ _, _ | dropped _, _ => true
  | sum factor, right :: left :: _ => carries known factor left && carries known factor right
  | product factor, right :: left :: _ =>
      carries known factor left && isPlain known right ||
        isPlain known left && carries known factor right
  | merged value factor, right :: left :: _ =>
      isDropped known value left && carries known (factor.mul value) right ||
        isDropped known value right && carries known (factor.mul value) left
  | _, _ => false

variable {known} in
/-- Under a part that is not a constant stand the two operands it follows from. -/
theorem Part.exists_operands (part : Part) {stack : List Expr} (hvalue : part.constant? = none)
    (hfollows : part.follows known stack) : ∃ right left es, stack = right :: left :: es := by
  rcases stack with _ | ⟨right, _ | ⟨left, es⟩⟩
  · cases part <;> cases hvalue <;> cases hfollows
  · cases part <;> cases hvalue <;> cases hfollows
  · exact ⟨right, left, es, rfl⟩

/-- The number of values on top of the stack that an instruction uses or moves. -/
def touched (effect : Effect) (stack : List Expr) : Nat :=
  let isNarrow (depth : Nat) : Bool := (stack[depth]?).any (·.origin.size == 1)
  match effect.operands?, effect with
  | some count, _ => count
  | none, .store _ | none, .leave true | none, .throw | none, .pop | none, .dup => 1
  | none, .dupX1 | none, .swap => 2
  | none, .pop2 | none, .dup2 => if isNarrow 0 then 2 else 1
  | none, .dupX2 => if isNarrow 1 then 3 else 2
  | none, .dup2X1 => if isNarrow 0 then 3 else 2
  | none, .dup2X2 =>
      if isNarrow 0 then if isNarrow 2 then 4 else 3
      else if isNarrow 1 then 3 else 2
  | none, _ => 0

/-- Whether two values may stand for one another: they have the same size, and if one of them changes, the same
instruction made both. -/
def agree (e e' : Expr) : Bool :=
  e.origin.size == e'.origin.size &&
    (isPlain known e && isPlain known e' || e.maker? == e'.maker?)

variable (frames : Array (Option (Frame Expr)))

/-- Whether a stack may arrive at an instruction. -/
def arrives (target : Nat) (stack : List Expr) : Bool :=
  match (frames[target]?).join with
  | some present =>
      stack.length == present.stack.length &&
        (stack.zip present.stack).all fun (e, e') => agree known e e'
  | none => false

/-- Whether a local slot is loaded as what it holds. -/
def loadsWidth (instr : Instr) (effect : Effect) (locals : List Expr) : Bool :=
  match effect, instr.localKind? with
  | .load slot, some kind => (locals[slot.toNat]?).all (·.origin.size == kind.size)
  | _, _ => true

/-- Whether an instruction treats the values that change as it should: one with a part has the operands for it,
and any other one touches no value that changes; and its stack may arrive wherever execution goes on. -/
def isFaithfulAt (flow : Flow) (index : Nat) : Bool :=
  match flow.code[index]?, (frames[index]?).join with
  | some (instr, effect), some frame =>
      (match known.lookup index with
        | some part => part.follows known frame.stack
        | none => (frame.stack.take (touched effect frame.stack)).all (isPlain known)) &&
      (match frame.execute Domain.exprs index instr effect, flow.successors index instr effect with
        | .ok after, .ok next => next.all (arrives known frames · after.stack)
        | _, _ => false) &&
      (flow.handlers.all fun range => !range.covers index ||
        arrives known frames range.handler [Domain.exprs.fresh .reference]) &&
      loadsWidth instr effect frame.locals
  | _, _ => true

end Condition

/-- Whether every value that folding changes goes only to the instruction for which it was changed, as the frames
of the method tell.  A method that cannot be analysed is not changed. -/
def isFaithful (m : MethodDecl) : Bool :=
  let analysis := analyze Domain.exprs m
  match analysis.result, Flow.ofMethod m with
  | .ok frames, .ok flow =>
      let known := allParts m.code.toArray (analysis.constantProducts m.code)
      decide (known.map Prod.fst).Nodup &&
        (known.all fun p => (m.code[p.1]?).any p.2.isMadeBy) &&
        arrives known frames 0 [] &&
        (List.range m.code.length).all (isFaithfulAt known frames flow)
  | .error _, _ => true
  | _, .error _ => false

end Unscramble.Multiplier.Fold
