/-
What a method does without its guards.  Along a control path that passes every guard the operand stack and the locals
are the same with the guards and without them, and a run that passes them ends as the run without them.
-/
import Unscramble.Proofs.GuardPaths

namespace Unscramble

namespace Machine

variable {σ : Type}

/-- The store with which execution goes on after an instruction, wherever that is. -/
def after? (w : World σ) (instr : Instr) (s : Store σ) : Option (Store σ) :=
  match exec w instr s with
  | .next s' | .jump _ s' => some s'
  | _ => none

/-- What the instructions along a path make of a store, where each of them is admitted.  The last one of the path is not
executed. -/
inductive Along (w : World σ) (code : List Instr) (admits : Nat → Store σ → Prop) :
    List Nat → Store σ → Store σ → Prop where
  | here {index : Nat} {s : Store σ} : Along w code admits [index] s s
  | step {index next : Nat} {path : List Nat} {instr : Instr} {s s' last : Store σ} : code[index]? = some instr →
      admits index s → after? w instr s = some s' → Along w code admits (next :: path) s' last →
      Along w code admits (index :: next :: path) s last

end Machine

namespace Guard

variable {slot : UInt16} {code : List Instr} {guard : Guard} {first : Nat}

section Effects

open Machine

variable {σ : Type} {w : World σ} {admits : Nat → Store σ → Prop} {index next : Nat} {path path' : List Nat}
  {s s' last : Store σ}

theorem along_singleton : Along w code admits [index] s last ↔ last = s := by
  constructor
  · rintro ⟨⟩
    rfl
  · rintro rfl
    exact .here

theorem along_cons_cons : Along w code admits (index :: next :: path) s last ↔ ∃ instr s', code[index]? = some instr ∧
    admits index s ∧ after? w instr s = some s' ∧ Along w code admits (next :: path) s' last := by
  constructor
  · rintro (_ | ⟨hinstr, hadmits, hafter, hrest⟩)
    exact ⟨_, _, hinstr, hadmits, hafter, hrest⟩
  · rintro ⟨instr, s', hinstr, hadmits, hafter, hrest⟩
    exact .step hinstr hadmits hafter hrest

/-- Where a guard stood, its slot holds a number. -/
def Guarded (slot : UInt16) (code : List Instr) (place : Nat) (s : Store σ) : Prop :=
  ∀ first, (guardAt? slot code first).isSome = true → moved slot code first = place → ∃ v, s.locals slot = .int v

/-- The first three instructions of a guard leave the store as it is, if they find a number in the slot. -/
theorem along_guard (h : guardAt? slot code first = some guard) :
    Along w code (fun _ _ => True) (first :: (first + 1) :: (first + 2) :: next :: path) s last ↔
      (∃ v, s.locals slot = .int v) ∧ Along w code (fun _ _ => True) (next :: path) s last := by
  obtain ⟨push, op, constant, hload, hpush, hcompare, hconstant, hpassing⟩ := exists_instrs h
  have hafter : ∀ v, ∃ c, after? w push { s with stack := .int v :: s.stack } =
        some { s with stack := .int c :: .int v :: s.stack } ∧
      after? w (.jump op guard.target) { s with stack := .int c :: .int v :: s.stack } = some s := by
    intro v
    obtain ⟨c, hc⟩ := (pushes hconstant).2 σ w { s with stack := .int v :: s.stack }
    obtain ⟨taken, htaken⟩ := (compares hpassing guard.target).2 σ w
      { s with stack := .int c :: .int v :: s.stack } v c s.stack rfl
    refine ⟨c, by rw [after?, hc], ?_⟩
    rw [after?, htaken]
    cases taken <;> rfl
  simp only [along_cons_cons, hload, hpush, hcompare, Option.some.injEq, true_and]
  rcases exec_load w slot s with ⟨v, hv, hexec⟩ | ⟨hnone, hexec⟩
  · obtain ⟨c, hc, hs⟩ := hafter v
    have hfirst : after? w (.var Opcode.iload slot) s = some { s with stack := .int v :: s.stack } := by
      rw [after?, hexec]
    constructor
    · rintro ⟨_, s₁, rfl, hs₁, _, s₂, rfl, hs₂, _, s₃, rfl, hs₃, hrest⟩
      obtain rfl := Option.some.inj (hfirst.symm.trans hs₁)
      obtain rfl := Option.some.inj (hc.symm.trans hs₂)
      obtain rfl := Option.some.inj (hs.symm.trans hs₃)
      exact ⟨⟨v, hv⟩, hrest⟩
    · rintro ⟨-, hrest⟩
      exact ⟨_, _, rfl, hfirst, _, _, rfl, hc, _, _, rfl, hs, hrest⟩
  · constructor
    · rintro ⟨_, s₁, rfl, hs₁, -⟩
      rw [after?, hexec] at hs₁
      cases hs₁
    · rintro ⟨⟨v, hv⟩, -⟩
      exact absurd hv (hnone v)

/-- A contracted path does to the store what the path did. -/
theorem Contracts.along_iff (h : Contracts slot code path path') : Along w code (fun _ _ => True) path s last ↔
    Along w (removeAll slot code).1 (Guarded slot code) path' s last := by
  induction h generalizing s with
  | arrive => rw [along_singleton, along_singleton]
  | @step index next path path' houtside hguard hgoes hrest ih =>
      obtain ⟨-, rest, rfl⟩ := hrest.head
      have hguarded : ∀ s : Store σ, Guarded slot code (moved slot code index) s := by
        intro s first hfirst heq
        obtain ⟨guard, hfirst⟩ := Option.isSome_iff_exists.1 hfirst
        have hlt := (List.getElem?_eq_some_iff.1 (getElem?_of_guardAt? hfirst)).1
        obtain rfl := moved_inj (not_inside_of_guardAt? hfirst) houtside (Nat.le_of_lt hlt)
          (Nat.le_of_lt hgoes.lt_length) heq
        cases hguard.symm.trans hfirst
      simp only [along_cons_cons, getElem?_moved houtside hguard, ih, hguarded]
  | @guard first next guard path path' hguard hplace hrest ih =>
      obtain ⟨-, rest, rfl⟩ := hrest.head
      have hguarded : Guarded slot code (moved slot code first) s ↔ ∃ v, s.locals slot = .int v :=
        ⟨fun h => h first (by rw [hguard]; rfl) rfl, fun h _ _ _ => h⟩
      have hjump : after? w (.jump Opcode.goto guard.target) s = some s := rfl
      simp only [along_guard hguard, along_cons_cons, getElem?_moved_of_guard hguard, hguarded, ih,
        Option.some.injEq]
      constructor
      · rintro ⟨hv, hrest⟩
        exact ⟨_, s, rfl, hv, hjump, hrest⟩
      · rintro ⟨_, s', rfl, hv, hs', hrest⟩
        obtain rfl := Option.some.inj (hjump.symm.trans hs')
        exact ⟨hv, hrest⟩

end Effects

section Runs

open Machine

variable {σ : Type} {w : World σ} {m : MethodDecl} {c : Config σ} {s : Store σ} {index : Nat}

/-- A run passes every guard to which it comes: three steps later it has come to where the guard leads. -/
def PassesGuards (slot : UInt16) (w : World σ) (m : MethodDecl) (c : Config σ) : Prop :=
  ∀ steps first, ∀ guard ∈ guardAt? slot m.code first, (run w m steps c).pc? = some first →
    (run w m (steps + 3) c).pc? = place? (labelPlaces m.code) guard.target

/-- The method without the guards of a slot. -/
def opened (slot : UInt16) (m : MethodDecl) : MethodDecl :=
  { m with code := (removeAll slot m.code).1 }

theorem step_cases {pc : Nat} (h : (step w m (.running index s)).pc? = some pc) :
    pc = index + 1 ∨ ∃ l, m.code[pc]? = some (.label l) := by
  rw [step] at h
  split at h
  · next instr _ =>
      cases haction : exec w instr s with
      | next s' =>
          rw [haction] at h
          exact .inl (Option.some.inj h).symm
      | jump target s' =>
          rw [haction, proceed] at h
          split at h
          · next place hplace =>
              obtain rfl := Option.some.inj h
              exact .inr ⟨target, place?_labelPlaces hplace⟩
          · cases h
      | leave | stuck =>
          rw [haction] at h
          cases h
      | throw exception memory =>
          rw [haction, proceed] at h
          split at h
          · split at h
            · next place hplace =>
                obtain rfl := Option.some.inj h
                exact .inr (handler?_eq_some hplace)
            · cases h
          · cases h
  · cases h

/-- An instruction that belongs to no guard does the same, and its exceptions have the same handlers. -/
theorem step_opened (s : Store σ) (hindex : ¬ Inside slot m.code index) (hguard : guardAt? slot m.code index = none) :
    step w (opened slot m) (.running (moved slot m.code index) s) =
      move (moved slot m.code) (step w m (.running index s)) := by
  cases hinstr : m.code[index]? with
  | none =>
      rw [step, step, opened, getElem?_moved hindex hguard, hinstr]
      rfl
  | some instr =>
      have hblock := getElem?_blocks slot hinstr
      rw [block_of_none hguard hindex] at hblock
      rw [opened, removeAll_eq]
      exact step_flatten (keepsLabels_blocks slot m.code) hinstr hblock s

/-- A run that passes a guard does in three steps what it does without the guard in one. -/
theorem run_guard (hguard : guardAt? slot m.code first = some guard)
    (hpasses : (run w m 3 (.running first s)).pc? = place? (labelPlaces m.code) guard.target) :
    step w (opened slot m) (.running (moved slot m.code first) s) =
      move (moved slot m.code) (run w m 3 (.running first s)) := by
  have hopened : step w (opened slot m) (.running (moved slot m.code first) s) =
      move (moved slot m.code) (proceed w m first s.locals (.jump guard.target s)) := by
    have hjump : (opened slot m).code[moved slot m.code first]? = some (.jump Opcode.goto guard.target) :=
      getElem?_moved_of_guard hguard
    rw [step, hjump]
    show proceed w (opened slot m) _ s.locals (.jump guard.target s) = _
    rw [proceed, proceed, opened, place?_removeAll]
    cases place? (labelPlaces m.code) guard.target <;> rfl
  obtain ⟨push, op, constant, hload, hpush, hcompare, hconstant, hpassing⟩ := exists_instrs hguard
  have hthree : run w m 3 (.running first s) = step w m (step w m (step w m (.running first s))) := rfl
  have hfirst : step w m (.running first s) = proceed w m first s.locals (exec w (.var Opcode.iload slot) s) := by
    rw [step, hload]
  rw [hopened]
  rcases exec_load w slot s with ⟨v, hv, hexec⟩ | ⟨-, hexec⟩
  · obtain ⟨b, hb⟩ := (pushes hconstant).2 σ w { s with stack := .int v :: s.stack }
    obtain ⟨taken, htaken⟩ := (compares hpassing guard.target).2 σ w
      { s with stack := .int b :: .int v :: s.stack } v b s.stack rfl
    have hsecond : step w m (step w m (.running first s)) =
        .running (first + 2) { s with stack := .int b :: .int v :: s.stack } := by
      rw [hfirst, hexec, proceed, step, hpush]
      dsimp only
      rw [hb, proceed]
    have hthird : run w m 3 (.running first s) = proceed w m (first + 2) s.locals
        (if taken then .jump guard.target s else .next s) := by
      rw [hthree, hsecond, step, hcompare]
      dsimp only
      rw [htaken]
    rw [hthird] at hpasses ⊢
    cases taken with
    | true => rfl
    | false =>
        -- behind the comparison stands no label
        have hplace : place? (labelPlaces m.code) guard.target = some (first + 3) := hpasses.symm
        exact absurd (inside_of_lt hguard (by omega) (by omega)) (not_inside_of_place? hplace)
  · have hstuck : run w m 3 (.running first s) = .stuck := by
      rw [hthree, hfirst, hexec]
      rfl
    rw [hstuck] at hpasses ⊢
    rw [proceed, ← hpasses]
    rfl

/-- Without its guards a method does what a run does that passes them, in no more steps. -/
theorem exists_run_of_opened (hstart : ∀ pc, c.pc? = some pc → ¬ Inside slot m.code pc)
    (hpasses : PassesGuards slot w m c) (count : Nat) : ∃ steps, count ≤ steps ∧
      run w (opened slot m) count (move (moved slot m.code) c) = move (moved slot m.code) (run w m steps c) ∧
      ∀ pc, (run w m steps c).pc? = some pc → ¬ Inside slot m.code pc := by
  induction count with
  | zero => exact ⟨0, Nat.le_refl 0, rfl, hstart⟩
  | succ count ih =>
      obtain ⟨steps, hle, hrun, hplace⟩ := ih
      have hsucc : run w (opened slot m) (count + 1) (move (moved slot m.code) c) =
          step w (opened slot m) (move (moved slot m.code) (run w m steps c)) := by
        rw [run_add, hrun]
        rfl
      rw [hsucc]
      by_cases hended : (run w m steps c).pc? = none
      · refine ⟨steps + 1, by omega, ?_, ?_⟩
        · rw [run_add, run_of_ended hended, move_of_ended hended, step_of_ended hended]
        · rw [run_add, run_of_ended hended]
          exact hplace
      · obtain ⟨pc, s, hconfig⟩ : ∃ pc s, run w m steps c = .running pc s := by
          cases hconfig : run w m steps c with
          | running pc s => exact ⟨pc, s, rfl⟩
          | _ => exact absurd (by rw [hconfig]; rfl) hended
        have hpc : (run w m steps c).pc? = some pc := by rw [hconfig]; rfl
        have houtside := hplace pc hpc
        cases hguard : guardAt? slot m.code pc with
        | none =>
            have hone : run w m (steps + 1) c = step w m (.running pc s) := by
              rw [run_add, hconfig]
              rfl
            refine ⟨steps + 1, by omega, ?_, ?_⟩
            · rw [hone, hconfig]
              exact step_opened s houtside hguard
            · intro next hnext
              rw [hone] at hnext
              rcases step_cases hnext with rfl | ⟨l, hl⟩
              · exact not_inside_succ houtside hguard
              · exact not_inside_of_label hl
        | some guard =>
            have hthree : run w m (steps + 3) c = run w m 3 (.running pc s) := by rw [run_add, hconfig]
            have hpassed := hpasses steps pc guard hguard hpc
            refine ⟨steps + 3, by omega, ?_, ?_⟩
            · rw [hthree, hconfig]
              exact run_guard hguard (hthree ▸ hpassed)
            · intro next hnext
              exact not_inside_of_place? (hpassed.symm.trans hnext)

/-- A run that passes its guards ends as the run without them, or never. -/
theorem ends_iff (hstart : ∀ pc, c.pc? = some pc → ¬ Inside slot m.code pc) (hpasses : PassesGuards slot w m c)
    {ending : Config σ} (hended : ending.pc? = none) : (∃ steps, run w m steps c = ending) ↔
      ∃ steps, run w (opened slot m) steps (move (moved slot m.code) c) = ending := by
  constructor
  · rintro ⟨steps, rfl⟩
    obtain ⟨more, hle, hrun, -⟩ := exists_run_of_opened hstart hpasses steps
    rw [run_of_le hended hle, move_of_ended hended] at hrun
    exact ⟨steps, hrun⟩
  · rintro ⟨count, rfl⟩
    obtain ⟨steps, -, hrun, -⟩ := exists_run_of_opened hstart hpasses count
    rw [hrun, pc?_move, Option.map_eq_none_iff] at hended
    exact ⟨steps, by rw [hrun, move_of_ended hended]⟩

end Runs

section Code

open Machine

/-- Code is what another one becomes when its guards are opened to those who pass them. -/
structure Opens (slot : UInt16) (code code' : List Instr) (guards : List Guard) : Prop where
  /-- Each guard becomes a jump to where it leads when it is passed, and nothing else changes. -/
  replaced : code' = (blocks slot code).flatten
  /-- The guards are all there are, in their order. -/
  removed : guards = (List.range code.length).filterMap (guardAt? slot code)
  /-- The code does not begin in the middle of a guard, and its first place is the first one. -/
  entry : ¬ Inside slot code 0 ∧ moved slot code 0 = 0
  /-- A step into the middle of a guard comes from the instruction before, in the same guard. -/
  steps : ∀ source target, Goes code source target → Inside slot code target → target = source + 1 ∧
    ∃ first ≤ source, ∃ guard ∈ guardAt? slot code first, target < first + guard.length
  /-- No label stands in a guard, so that no handler enters one either. -/
  labels : ∀ l place, place? (labelPlaces code) l = some place → ¬ Inside slot code place
  /-- A path that passes every guard becomes one of the new code. -/
  contracts : ∀ start, ¬ Inside slot code start → Set.MapsTo (contract slot code)
    {path | IsPath (Passes slot code) start path} {path | IsPath (Goes code') (moved slot code start) path}
  /-- All paths of the new code come from such a path, and from one only that does not end in the middle of a guard. -/
  paths : ∀ start, ¬ Inside slot code start → Set.BijOn (contract slot code)
    {path | IsPath (Passes slot code) start path ∧ EndsOutside slot code path}
    {path | IsPath (Goes code') (moved slot code start) path}
  /-- Both do the same to stack, locals and memory, where the slot holds a number as the guards require. -/
  effects : ∀ (σ : Type) (w : World σ) (start : Nat) (path : List Nat) (s last : Store σ), ¬ Inside slot code start →
    IsPath (Passes slot code) start path → EndsOutside slot code path →
    (Along w code (fun _ _ => True) path s last ↔ Along w code' (Guarded slot code) (contract slot code path) s last)
  /-- A run of a method that passes every guard ends as before, whatever is outside the method, or never. -/
  runs : ∀ (σ : Type) (w : World σ) (m : MethodDecl) (s : Store σ) (ending : Config σ), m.code = code →
    PassesGuards slot w m (.running 0 s) → ending.pc? = none →
    ((∃ steps, run w m steps (.running 0 s) = ending) ↔
      ∃ steps, run w { m with code := code' } steps (.running 0 s) = ending)
  /-- There is no guard left. -/
  again : removeAll slot code' = (code', [])

/-- Without its guards code takes the paths that passed them, and does the same. -/
theorem removeAll_opens (slot : UInt16) (code : List Instr) :
    Opens slot code (removeAll slot code).1 (removeAll slot code).2 where
  replaced := congrArg Prod.fst (removeAll_eq slot code)
  removed := congrArg Prod.snd (removeAll_eq slot code)
  entry := ⟨not_inside_zero, blockStart_zero _⟩
  steps := fun _ _ => exists_of_goes_inside
  labels := fun _ _ => not_inside_of_place?
  contracts := fun _ hstart _ => isPath_contract hstart
  paths := fun _ => bijOn_contract
  effects := by
    intro σ w start path s last hstart hpath hends
    obtain ⟨path', hcontracts⟩ := exists_contracts hstart hpath hends
    rw [hcontracts.eq_contract]
    exact hcontracts.along_iff
  runs := by
    rintro σ w m s ending rfl hpasses hended
    have hstart : ∀ pc, (Config.running 0 s).pc? = some pc → ¬ Inside slot m.code pc := by
      intro pc hpc
      exact Option.some.inj hpc ▸ not_inside_zero
    rw [ends_iff hstart hpasses hended, move, moved, blockStart_zero]
    rfl
  again := removeAll_removeAll slot code

/-- The comparison of another slot is no guard, though it leaves in the same way. -/
example : removeAll 1 [.label ⟨0⟩, .var Opcode.iload 1, .simple Opcode.iconst2, .jump Opcode.ifIcmpGe ⟨1⟩,
    .simple Opcode.vreturn, .label ⟨1⟩, .var Opcode.iload 0, .int Opcode.bipush 7, .jump Opcode.ifIcmpEq ⟨0⟩,
    .simple Opcode.vreturn] =
      ([.label ⟨0⟩, .jump Opcode.goto ⟨1⟩, .label ⟨1⟩, .var Opcode.iload 0, .int Opcode.bipush 7,
        .jump Opcode.ifIcmpEq ⟨0⟩, .simple Opcode.vreturn], [⟨4, ⟨1⟩, 3⟩]) := by
  rw [removeAll_eq]
  decide

end Code

end Guard

end Unscramble
