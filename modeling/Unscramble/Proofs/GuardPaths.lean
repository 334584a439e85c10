/-
The control paths that pass every guard, and what they become.  A guard takes three steps: a load, a constant and a
comparison, which become one jump.  No path enters a guard but at its first instruction, so all paths of the new code
are such paths with their guards contracted.
-/
import Mathlib.Data.Set.Function
import Unscramble.Proofs.GuardLayout

namespace Unscramble.Guard

variable {slot : UInt16} {code : List Instr} {guard : Guard} {source target first : Nat}

/-- A step that leaves the comparison of a guard only to where it leads when it is passed. -/
def Passes (slot : UInt16) (code : List Instr) (source target : Nat) : Prop :=
  Goes code source target ∧ ∀ first, ∀ guard ∈ guardAt? slot code first, source = first + 2 →
    place? (labelPlaces code) guard.target = some target

/-- A path without what is in the middle of guards, at the new places. -/
def contract (slot : UInt16) (code : List Instr) (path : List Nat) : List Nat :=
  (path.filter fun index => ¬ Inside slot code index).map (moved slot code)

section Steps

/-- Guards are entered at their first instruction only. -/
theorem exists_of_goes_inside (h : Goes code source target) (hinside : Inside slot code target) :
    target = source + 1 ∧ ∃ first ≤ source, ∃ guard ∈ guardAt? slot code first, target < first + guard.length := by
  rcases h.cases with rfl | ⟨l, hplace⟩
  · obtain ⟨first, hlt, guard, hguard, hlt'⟩ := hinside
    exact ⟨rfl, first, Nat.le_of_lt_succ hlt, guard, hguard, hlt'⟩
  · exact absurd hinside (not_inside_of_place? hplace)

/-- Outside of guards execution goes on outside of them, or to their first instructions. -/
theorem not_inside_of_goes (hsource : ¬ Inside slot code source) (hguard : guardAt? slot code source = none)
    (h : Goes code source target) : ¬ Inside slot code target := by
  rcases h.cases with rfl | ⟨l, hplace⟩
  · exact not_inside_succ hsource hguard
  · exact not_inside_of_place? hplace

/-- An instruction that belongs to no guard goes on to the new places of its successors. -/
theorem goes_moved_iff (hsource : ¬ Inside slot code source) (hguard : guardAt? slot code source = none) :
    Goes (removeAll slot code).1 (moved slot code source) target ↔
      ∃ place, Goes code source place ∧ moved slot code place = target := by
  have hsame := getElem?_moved hsource hguard
  have hsuccessors : ∀ instr effect, code[source]? = some instr →
      (Flow.ofLabels (removeAll slot code).1).successors (moved slot code source) instr effect =
        ((Flow.ofLabels code).successors source instr effect).map (List.map (moved slot code)) := by
    intro instr effect hinstr
    apply Flow.successors_map
    · exact place?_removeAll slot code
    · exact moved_succ hinstr hsource
  constructor
  · rintro ⟨instr, effect, next, hinstr, heffect, hnext, htarget⟩
    rw [hsame] at hinstr
    rw [hsuccessors instr effect hinstr] at hnext
    obtain ⟨places, hplaces, rfl⟩ := map_eq_ok.1 hnext
    obtain ⟨place, hplace, rfl⟩ := List.mem_map.1 htarget
    exact ⟨place, ⟨instr, effect, places, hinstr, heffect, hplaces, hplace⟩, rfl⟩
  · rintro ⟨place, ⟨instr, effect, places, hinstr, heffect, hplaces, hplace⟩, rfl⟩
    refine ⟨instr, effect, places.map (moved slot code), hsame.trans hinstr, heffect, ?_, List.mem_map_of_mem hplace⟩
    rw [hsuccessors instr effect hinstr, hplaces]
    rfl

/-- The jump that a guard becomes goes to where the guard leads. -/
theorem goes_moved_of_guard (h : guardAt? slot code source = some guard) :
    Goes (removeAll slot code).1 (moved slot code source) target ↔
      ∃ place, place? (labelPlaces code) guard.target = some place ∧ moved slot code place = target := by
  rw [goes_goto_iff (getElem?_moved_of_guard h), place?_removeAll, Option.map_eq_some_iff]

end Steps

section Instructions

open Machine

variable {op : Opcode} {constant passing : Int32} {push : Instr}

theorem mem_constants (h : op.between Opcode.iconstM1 Opcode.iconst5 = true) : op ∈ [Opcode.iconstM1, Opcode.iconst0,
    Opcode.iconst1, Opcode.iconst2, Opcode.iconst3, Opcode.iconst4, Opcode.iconst5] := by
  rw [Opcode.between, Bool.and_eq_true, decide_eq_true_eq, decide_eq_true_eq, UInt8.le_iff_toNat_le,
    UInt8.le_iff_toNat_le] at h
  change 2 ≤ op.toNat ∧ op.toNat ≤ 8 at h
  simp only [List.mem_cons, List.not_mem_nil, or_false, ← UInt8.toNat_inj]
  show op.toNat = 2 ∨ op.toNat = 3 ∨ op.toNat = 4 ∨ op.toNat = 5 ∨ op.toNat = 6 ∨ op.toNat = 7 ∨ op.toNat = 8
  omega

theorem mem_comparisons (h : passing? op constant = some passing) : op ∈ [Opcode.ifIcmpEq, Opcode.ifIcmpNe,
    Opcode.ifIcmpLt, Opcode.ifIcmpGe, Opcode.ifIcmpGt, Opcode.ifIcmpLe] := by
  unfold passing? at h
  split at h
  · decide
  · decide
  · decide
  · decide
  · decide
  · decide
  · cases h

/-- A constant is pushed, and nothing else happens. -/
theorem pushes (h : push.intConstant? = some constant) : Effect.ofInstr push = .ok (.push .int) ∧
    ∀ (σ : Type) (w : World σ) (s : Store σ), ∃ v, exec w push s = .next { s with stack := .int v :: s.stack } := by
  cases push with
  | simple op =>
      simp only [Instr.intConstant?] at h
      split at h
      · next hop =>
          have hcases := mem_constants hop
          simp only [List.mem_cons, List.not_mem_nil, or_false] at hcases
          rcases hcases with rfl | rfl | rfl | rfl | rfl | rfl | rfl <;> exact ⟨rfl, fun _ _ s => ⟨_, rfl⟩⟩
      · cases h
  | int op operand =>
      simp only [Instr.intConstant?] at h
      split at h
      · next hop =>
          rw [Bool.or_eq_true, beq_iff_eq, beq_iff_eq] at hop
          rcases hop with rfl | rfl <;> exact ⟨rfl, fun _ _ s => ⟨_, rfl⟩⟩
      · cases h
  | ldc c =>
      cases c with
      | int v => exact ⟨rfl, fun _ _ s => ⟨_, rfl⟩⟩
      | _ => cases h
  | _ => cases h

/-- A comparison takes two numbers, and nothing else happens. -/
theorem compares (h : passing? op constant = some passing) (l : Label) :
    Effect.ofInstr (.jump op l) = .ok (.binary none) ∧
      ∀ (σ : Type) (w : World σ) (s : Store σ) (a b : Int32) (rest : List Value), s.stack = .int b :: .int a :: rest →
        ∃ taken : Bool, exec w (.jump op l) s =
          if taken then .jump l { s with stack := rest } else .next { s with stack := rest } := by
  have hcases := mem_comparisons h
  simp only [List.mem_cons, List.not_mem_nil, or_false] at hcases
  have heffect : Effect.ofInstr (.jump op l) = .ok (.binary none) := by
    rcases hcases with rfl | rfl | rfl | rfl | rfl | rfl <;> rfl
  refine ⟨heffect, ?_⟩
  rintro σ w ⟨locals, stack, memory⟩ a b rest rfl
  have htaken : ∃ taken, op.taken? [.int b, .int a] = some taken := by
    rcases hcases with rfl | rfl | rfl | rfl | rfl | rfl <;> exact ⟨_, rfl⟩
  obtain ⟨taken, htaken⟩ := htaken
  refine ⟨taken, ?_⟩
  rw [exec, heffect]
  show finish _ rest none ((op.taken? [.int b, .int a]).map _) = _
  rw [htaken]
  cases taken <;> rfl

/-- The load of a guard needs a number. -/
theorem exec_load {σ : Type} (w : World σ) (slot : UInt16) (s : Store σ) :
    (∃ v, s.locals slot = .int v ∧ exec w (.var Opcode.iload slot) s = .next { s with stack := .int v :: s.stack }) ∨
      (∀ v, s.locals slot ≠ .int v) ∧ exec w (.var Opcode.iload slot) s = .stuck := by
  have hexec : exec w (.var Opcode.iload slot) s = if some Kind.int = some (s.locals slot).kind then
      .next { s with stack := s.locals slot :: s.stack } else .stuck := rfl
  rw [hexec]
  cases s.locals slot with
  | int v => exact .inl ⟨v, rfl, rfl⟩
  | _ => exact .inr ⟨nofun, rfl⟩

end Instructions

section Passing

/-- Outside of guards every step passes. -/
theorem passes_iff (h : ¬ Inside slot code source) : Passes slot code source target ↔ Goes code source target := by
  refine ⟨And.left, fun hgoes => ⟨hgoes, ?_⟩⟩
  rintro first guard hguard rfl
  exact absurd (inside_of_lt hguard (by omega) (by omega)) h

/-- From the load of a guard execution goes on to the constant, -/
theorem passes_load (h : guardAt? slot code first = some guard) :
    Passes slot code first target ↔ target = first + 1 := by
  obtain ⟨push, op, constant, hload, -⟩ := exists_instrs h
  rw [passes_iff (not_inside_of_guardAt? h), goes_iff hload rfl rfl, List.mem_singleton]

/-- from there to the comparison, -/
theorem passes_push (h : guardAt? slot code first = some guard) :
    Passes slot code (first + 1) target ↔ target = first + 2 := by
  obtain ⟨push, op, constant, -, hpush, -, hconstant, -⟩ := exists_instrs h
  have hnext : (Flow.ofLabels code).successors (first + 1) push (.push .int) = .ok [first + 2] := by
    cases push with
    | simple | int | ldc => rfl
    | _ => cases hconstant
  have hgoes : Goes code (first + 1) target ↔ target = first + 2 := by
    rw [goes_iff hpush (pushes hconstant).1 hnext, List.mem_singleton]
  refine ⟨fun hpasses => hgoes.1 hpasses.1, fun htarget => ⟨hgoes.2 htarget, ?_⟩⟩
  intro other guard' hguard' heq
  obtain rfl : first = other + 1 := by omega
  exact absurd (inside_of_lt hguard' (by omega) (by omega)) (not_inside_of_guardAt? h)

/-- and, if the guard is passed, to where it leads. -/
theorem passes_compare (h : guardAt? slot code first = some guard) :
    Passes slot code (first + 2) target ↔ place? (labelPlaces code) guard.target = some target := by
  refine ⟨fun hpasses => hpasses.2 first guard h rfl, fun hplace => ⟨?_, ?_⟩⟩
  · obtain ⟨push, op, constant, -, -, hcompare, -, hpassing⟩ := exists_instrs h
    have hnext : (Flow.ofLabels code).successors (first + 2) (.jump op guard.target) (.binary none) =
        .ok [first + 3, target] := by
      refine bind_eq_ok.2 ⟨target, Flow.target_eq_ok.2 hplace, ?_⟩
      rw [if_neg (by simpa using not_isJump_of_passing? hpassing)]
      rfl
    exact (goes_iff hcompare (compares hpassing guard.target).1 hnext).2 (by simp)
  · intro other guard' hguard' heq
    obtain rfl : first = other := by omega
    obtain rfl := Option.some.inj (h.symm.trans hguard')
    exact hplace

end Passing

section Paths

variable {start index : Nat} {path path' : List Nat}

/-- A passing path that does not end in the middle of a guard, and what it becomes. -/
inductive Contracts (slot : UInt16) (code : List Instr) : List Nat → List Nat → Prop where
  | arrive {index : Nat} : ¬ Inside slot code index → Contracts slot code [index] [moved slot code index]
  | step {index next : Nat} {path path' : List Nat} : ¬ Inside slot code index → guardAt? slot code index = none →
      Goes code index next → Contracts slot code (next :: path) path' →
      Contracts slot code (index :: next :: path) (moved slot code index :: path')
  | guard {first next : Nat} {guard : Guard} {path path' : List Nat} : guardAt? slot code first = some guard →
      place? (labelPlaces code) guard.target = some next → Contracts slot code (next :: path) path' →
      Contracts slot code (first :: (first + 1) :: (first + 2) :: next :: path) (moved slot code first :: path')

/-- The path ends outside of guards, or at the first instruction of one. -/
def EndsOutside (slot : UInt16) (code : List Instr) (path : List Nat) : Prop :=
  ∀ last ∈ path.getLast?, ¬ Inside slot code last

theorem contract_cons (h : ¬ Inside slot code index) (path : List Nat) :
    contract slot code (index :: path) = moved slot code index :: contract slot code path := by
  rw [contract, List.filter_cons_of_pos (by simpa using h), List.map_cons, contract]

theorem contract_cons_of_inside (h : Inside slot code index) (path : List Nat) :
    contract slot code (index :: path) = contract slot code path := by
  rw [contract, List.filter_cons_of_neg (by simpa using h), contract]

theorem endsOutside_cons_cons {next : Nat} :
    EndsOutside slot code (index :: next :: path) ↔ EndsOutside slot code (next :: path) := by
  rw [EndsOutside, EndsOutside, List.getLast?_cons_cons]

/-- Every passing path from outside of guards that ends outside of them goes through whole guards. -/
theorem exists_contracts (hstart : ¬ Inside slot code start) (hpath : IsPath (Passes slot code) start path)
    (hends : EndsOutside slot code path) : ∃ path', Contracts slot code path path' := by
  -- a guard takes three steps at once, so the induction is on the length
  induction hlength : path.length using Nat.strongRecOn generalizing start path with
  | _ length ih =>
      rcases isPath_cons hpath with rfl | ⟨next, rest, rfl, hstep, hrest⟩
      · exact ⟨_, .arrive hstart⟩
      · rw [endsOutside_cons_cons] at hends
        cases hguard : guardAt? slot code start with
        | none =>
            have hnext := not_inside_of_goes hstart hguard hstep.1
            obtain ⟨path', hpath'⟩ := ih _ (by rw [← hlength]; simp) hnext hrest hends rfl
            exact ⟨_, .step hstart hguard hstep.1 hpath'⟩
        | some guard =>
            have hmiddle : ∀ offset, 0 < offset → offset < 4 → ¬ EndsOutside slot code [start + offset] :=
              fun offset hpos hlt houtside => houtside _ rfl (inside_of_lt hguard hpos hlt)
            obtain rfl := (passes_load hguard).1 hstep
            rcases isPath_cons hrest with hsingle | ⟨third, rest, hthird, hstep, hrest⟩
            · exact absurd (hsingle ▸ hends) (hmiddle 1 (by omega) (by omega))
            rw [hthird, endsOutside_cons_cons] at hends
            obtain rfl := (passes_push hguard).1 hstep
            rcases isPath_cons hrest with hsingle | ⟨next, rest, hnext, hstep, hrest⟩
            · exact absurd (hsingle ▸ hends) (hmiddle 2 (by omega) (by omega))
            rw [hnext, endsOutside_cons_cons] at hends
            rw [hthird, hnext] at hlength ⊢
            have hplace := (passes_compare hguard).1 hstep
            obtain ⟨path', hpath'⟩ := ih _ (by rw [← hlength]; simp only [List.length_cons]; omega)
              (not_inside_of_place? hplace) hrest hends rfl
            exact ⟨_, .guard hguard hplace hpath'⟩

theorem Contracts.eq_contract (h : Contracts slot code path path') : contract slot code path = path' := by
  induction h with
  | arrive houtside =>
      rw [contract_cons houtside]
      rfl
  | step houtside _ _ _ ih => rw [contract_cons houtside, ih]
  | guard hguard _ _ ih =>
      rw [contract_cons (not_inside_of_guardAt? hguard),
        contract_cons_of_inside (inside_of_lt hguard (by omega) (by omega)),
        contract_cons_of_inside (inside_of_lt hguard (by omega) (by omega)), ih]

/-- Paths begin outside of guards, and at the new place of where they began. -/
theorem Contracts.head (h : Contracts slot code (start :: path) path') :
    ¬ Inside slot code start ∧ ∃ rest, path' = moved slot code start :: rest := by
  cases h with
  | arrive houtside => exact ⟨houtside, [], rfl⟩
  | step houtside => exact ⟨houtside, _, rfl⟩
  | guard hguard => exact ⟨not_inside_of_guardAt? hguard, _, rfl⟩

/-- A contracted path is one of the new code. -/
theorem Contracts.isChain (h : Contracts slot code path path') : path'.IsChain (Goes (removeAll slot code).1) := by
  induction h with
  | arrive => exact List.isChain_singleton _
  | step houtside hguard hgoes hrest ih =>
      obtain ⟨-, rest, rfl⟩ := hrest.head
      exact List.isChain_cons_cons.2 ⟨(goes_moved_iff houtside hguard).2 ⟨_, hgoes, rfl⟩, ih⟩
  | guard hguard hplace hrest ih =>
      obtain ⟨-, rest, rfl⟩ := hrest.head
      exact List.isChain_cons_cons.2 ⟨(goes_moved_of_guard hguard).2 ⟨_, hplace, rfl⟩, ih⟩

theorem Contracts.passes (h : Contracts slot code path path') :
    path.IsChain (Passes slot code) ∧ EndsOutside slot code path := by
  induction h with
  | arrive houtside =>
      refine ⟨List.isChain_singleton _, fun last hlast => ?_⟩
      exact Option.some.inj hlast ▸ houtside
  | step houtside hguard hgoes _ ih =>
      rw [endsOutside_cons_cons]
      exact ⟨List.isChain_cons_cons.2 ⟨(passes_iff houtside).2 hgoes, ih.1⟩, ih.2⟩
  | guard hguard hplace _ ih =>
      rw [endsOutside_cons_cons, endsOutside_cons_cons, endsOutside_cons_cons]
      refine ⟨List.isChain_cons_cons.2 ⟨(passes_load hguard).2 rfl, ?_⟩, ih.2⟩
      refine List.isChain_cons_cons.2 ⟨(passes_push hguard).2 rfl, ?_⟩
      exact List.isChain_cons_cons.2 ⟨(passes_compare hguard).2 hplace, ih.1⟩

/-- Every path of the new code is a contracted one. -/
theorem exists_contracts_of_path (hstart : ¬ Inside slot code start)
    (hpath : IsPath (Goes (removeAll slot code).1) (moved slot code start) path') :
    ∃ path, path.head? = some start ∧ Contracts slot code path path' := by
  induction hlength : path'.length generalizing start path' with
  | zero =>
      rw [List.length_eq_zero_iff.1 hlength] at hpath
      cases hpath.1
  | succ length ih =>
      rcases isPath_cons hpath with rfl | ⟨next, rest, rfl, hstep, hrest⟩
      · exact ⟨[start], rfl, .arrive hstart⟩
      · -- the new step comes from a step of the old code, or from a guard
        cases hguard : guardAt? slot code start with
        | none =>
            obtain ⟨place, hgoes, rfl⟩ := (goes_moved_iff hstart hguard).1 hstep
            obtain ⟨path, hhead, hpath⟩ := ih (not_inside_of_goes hstart hguard hgoes) hrest (by simpa using hlength)
            obtain ⟨others, rfl⟩ := List.head?_eq_some_iff.1 hhead
            exact ⟨_, rfl, .step hstart hguard hgoes hpath⟩
        | some guard =>
            obtain ⟨place, hplace, rfl⟩ := (goes_moved_of_guard hguard).1 hstep
            obtain ⟨path, hhead, hpath⟩ := ih (not_inside_of_place? hplace) hrest (by simpa using hlength)
            obtain ⟨others, rfl⟩ := List.head?_eq_some_iff.1 hhead
            exact ⟨_, rfl, .guard hguard hplace hpath⟩

/-- Two paths from one place that become the same are the same. -/
theorem Contracts.unique {other other' : List Nat} (h : Contracts slot code path path')
    (hother : Contracts slot code other other') (heq : path' = other') (hhead : path.head? = other.head?) :
    path = other := by
  have hnext : ∀ {next next' : Nat} {rest rest' path' : List Nat}, next ≤ code.length → next' ≤ code.length →
      Contracts slot code (next :: rest) path' → Contracts slot code (next' :: rest') path' → next = next' := by
    intro next next' rest rest' path' hle hle' h h'
    obtain ⟨houtside, _, rfl⟩ := h.head
    obtain ⟨houtside', _, hmoved⟩ := h'.head
    exact moved_inj houtside houtside' hle hle' (List.cons.inj hmoved).1
  induction h generalizing other other' with
  | arrive houtside =>
      cases hother with
      | arrive => exact congrArg (· :: []) (Option.some.inj hhead)
      | step _ _ _ hrest =>
          obtain ⟨-, rest, rfl⟩ := hrest.head
          cases (List.cons.inj heq).2
      | guard _ _ hrest =>
          obtain ⟨-, rest, rfl⟩ := hrest.head
          cases (List.cons.inj heq).2
  | step houtside hguard hgoes hrest ih =>
      cases hother with
      | arrive =>
          obtain ⟨-, rest, rfl⟩ := hrest.head
          cases (List.cons.inj heq).2
      | step _ _ hgoes' hrest' =>
          obtain rfl := (List.cons.inj heq).2
          obtain rfl := hnext hgoes.le_length hgoes'.le_length hrest hrest'
          rw [Option.some.inj hhead, ih hrest' rfl rfl]
      | guard hguard' =>
          obtain rfl := Option.some.inj hhead
          cases hguard.symm.trans hguard'
  | guard hguard hplace hrest ih =>
      cases hother with
      | arrive =>
          obtain ⟨-, rest, rfl⟩ := hrest.head
          cases (List.cons.inj heq).2
      | step _ hguard' =>
          obtain rfl := Option.some.inj hhead
          cases hguard.symm.trans hguard'
      | guard hguard' hplace' hrest' =>
          obtain rfl := (List.cons.inj heq).2
          obtain rfl := hnext (Nat.le_of_lt (place?_labelPlaces_lt hplace))
            (Nat.le_of_lt (place?_labelPlaces_lt hplace')) hrest hrest'
          rw [Option.some.inj hhead, ih hrest' rfl rfl]

/-- A passing path may stop in the middle of a guard, which does not show after the contraction. -/
theorem isPath_contract (hstart : ¬ Inside slot code start) (hpath : IsPath (Passes slot code) start path) :
    IsPath (Goes (removeAll slot code).1) (moved slot code start) (contract slot code path) := by
  induction path using List.reverseRecOn with
  | nil => cases hpath.1
  | append_singleton front last ih =>
      by_cases hinside : Inside slot code last
      · have hcontract : contract slot code (front ++ [last]) = contract slot code front := by
          simp [contract, hinside]
        rw [hcontract]
        obtain ⟨hhead, hchain⟩ := hpath
        apply ih
        refine ⟨?_, hchain.left_of_append⟩
        cases front with
        | nil => exact absurd (Option.some.inj hhead ▸ hinside) hstart
        | cons first rest => exact hhead
      · have hends : EndsOutside slot code (front ++ [last]) := by
          intro index hindex
          rw [List.getLast?_append, List.getLast?_singleton] at hindex
          exact Option.some.inj hindex ▸ hinside
        obtain ⟨path', hcontracts⟩ := exists_contracts hstart hpath hends
        rw [hcontracts.eq_contract]
        obtain ⟨rest, hrest⟩ := List.head?_eq_some_iff.1 hpath.1
        rw [hrest] at hcontracts
        obtain ⟨-, rest', rfl⟩ := hcontracts.head
        exact ⟨rfl, hcontracts.isChain⟩

/-- The paths of the new code are the passing ones of the old code, contracted. -/
theorem bijOn_contract (hstart : ¬ Inside slot code start) : Set.BijOn (contract slot code)
    {path | IsPath (Passes slot code) start path ∧ EndsOutside slot code path}
    {path | IsPath (Goes (removeAll slot code).1) (moved slot code start) path} := by
  refine ⟨fun path hpath => isPath_contract hstart hpath.1, ?_, ?_⟩
  · rintro path ⟨hpath, hends⟩ other ⟨hother, hends'⟩ heq
    obtain ⟨path', hcontracts⟩ := exists_contracts hstart hpath hends
    obtain ⟨other', hcontracts'⟩ := exists_contracts hstart hother hends'
    rw [hcontracts.eq_contract, hcontracts'.eq_contract] at heq
    exact hcontracts.unique hcontracts' heq (hpath.1.trans hother.1.symm)
  · intro path' hpath'
    obtain ⟨path, hhead, hcontracts⟩ := exists_contracts_of_path hstart hpath'
    exact ⟨path, ⟨⟨hhead, hcontracts.passes.1⟩, hcontracts.passes.2⟩, hcontracts.eq_contract⟩

end Paths

end Unscramble.Guard
