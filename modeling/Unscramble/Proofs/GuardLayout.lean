/-
Guards in the code of a method, and where they go.  A guard begins with a load of its slot and holds no other load and
no label.  So guards do not overlap, no jump leads into one, and removing them changes each guard on its own: its first
instruction becomes the jump, and nothing is left of the others.
-/
import Unscramble.Cleanup.Guards
import Unscramble.Proofs.Blocks
import Unscramble.Proofs.Labels

namespace Unscramble.Guard

variable {slot : UInt16} {code rest : List Instr} {instr : Instr} {guard : Guard} {index first : Nat}

/-- The guard that begins at an index. -/
def guardAt? (slot : UInt16) (code : List Instr) (index : Nat) : Option Guard :=
  ofCode? slot (code.drop index)

/-- The index is that of an instruction of a guard, but not of its first one. -/
def Inside (slot : UInt16) (code : List Instr) (index : Nat) : Prop :=
  ∃ first < index, ∃ guard ∈ guardAt? slot code first, index < first + guard.length

instance (slot : UInt16) (code : List Instr) (index : Nat) : Decidable (Inside slot code index) :=
  inferInstanceAs (Decidable (∃ first < index, ∃ guard ∈ guardAt? slot code first, index < first + guard.length))

section Windows

/-- The instruction is no label, has no targets and touches no local slot. -/
def IsPlain (instr : Instr) : Prop :=
  instr.label? = none ∧ instr.targets = [] ∧ instr.localKind? = none

theorem isPlain_of_intConstant? {constant : Int32} (h : instr.intConstant? = some constant) : IsPlain instr := by
  cases instr with
  | simple | int | ldc => exact ⟨rfl, rfl, rfl⟩
  | _ => cases h

/-- The instructions with which a guard leaves are plain, and leave whatever comes after them. -/
theorem exists_exit {length : Nat} (h : exitLength? code = some length) : ∃ exit rest, code = exit ++ rest ∧
    exit.length = length ∧ 0 < length ∧ (∀ instr ∈ exit, IsPlain instr) ∧
      ∀ other, exitLength? (exit ++ other) = some length := by
  unfold exitLength? at h
  split at h
  · next create name copy call ref onInterface raise rest =>
      split at h
      · next hops =>
          obtain rfl := Option.some.inj h
          refine ⟨[.type create name, .simple copy, .method call ref onInterface, .simple raise], rest, rfl, rfl,
            Nat.zero_lt_succ 3, ?_, ?_⟩
          · simp [IsPlain, Instr.label?, Instr.targets, Instr.localKind?]
          · intro other
            exact if_pos hops
      · cases h
  · next op rest =>
      split at h
      · next hreturn =>
          obtain rfl := Option.some.inj h
          refine ⟨[.simple op], rest, rfl, rfl, Nat.zero_lt_one, ?_, ?_⟩
          · simp [IsPlain, Instr.label?, Instr.targets, Instr.localKind?]
          · intro other
            exact if_pos hreturn
      · cases h
  · cases h

/-- The instructions of a guard are a load of its slot, a constant, a comparison and those with which it leaves, and make
a guard before any other code. -/
theorem exists_window (h : ofCode? slot code = some guard) : ∃ push op constant exit rest,
    code = .var Opcode.iload slot :: push :: .jump op guard.target :: (exit ++ rest) ∧
      push.intConstant? = some constant ∧ passing? op constant = some guard.passing ∧
      guard.length = 3 + exit.length ∧ 0 < exit.length ∧ (∀ instr ∈ exit, IsPlain instr) ∧
      ∀ other, ofCode? slot (.var Opcode.iload slot :: push :: .jump op guard.target :: (exit ++ other)) =
        some guard := by
  unfold ofCode? at h
  split at h
  · next load index push op target rest =>
      split at h
      · next hload =>
          rw [Bool.and_eq_true, beq_iff_eq, beq_iff_eq] at hload
          obtain ⟨rfl, rfl⟩ := hload
          obtain ⟨constant, hconstant, h⟩ := Option.bind_eq_some_iff.1 h
          obtain ⟨passing, hpassing, h⟩ := Option.bind_eq_some_iff.1 h
          obtain ⟨length, hlength, h⟩ := Option.bind_eq_some_iff.1 h
          obtain rfl := Option.some.inj h
          obtain ⟨exit, after, rfl, rfl, hpos, hplain, hexit⟩ := exists_exit hlength
          refine ⟨push, op, constant, exit, after, rfl, hconstant, hpassing, rfl, hpos, hplain, fun other => ?_⟩
          simp [ofCode?, hconstant, hpassing, hexit other]
      · cases h
  · cases h

theorem length_pos (h : ofCode? slot code = some guard) : 0 < guard.length := by
  obtain ⟨push, op, constant, exit, rest, -, -, -, hlength, -⟩ := exists_window h
  omega

/-- The first three instructions of a guard. -/
theorem exists_instrs (h : guardAt? slot code first = some guard) : ∃ push op constant,
    code[first]? = some (.var Opcode.iload slot) ∧ code[first + 1]? = some push ∧
      code[first + 2]? = some (.jump op guard.target) ∧ push.intConstant? = some constant ∧
      passing? op constant = some guard.passing := by
  obtain ⟨push, op, constant, exit, rest, hcode, hconstant, hpassing, -⟩ := exists_window h
  have hat : ∀ offset, code[first + offset]? = (.var Opcode.iload slot :: push :: .jump op guard.target ::
      (exit ++ rest) : List Instr)[offset]? := by
    intro offset
    rw [← List.getElem?_drop, hcode]
  exact ⟨push, op, constant, hat 0, hat 1, hat 2, hconstant, hpassing⟩

/-- A guard begins with a load of its slot. -/
theorem getElem?_of_guardAt? (h : guardAt? slot code index = some guard) :
    code[index]? = some (.var Opcode.iload slot) := by
  obtain ⟨push, op, constant, hload, -⟩ := exists_instrs h
  exact hload

theorem not_isJump_of_passing? {op : Opcode} {constant passing : Int32} (h : passing? op constant = some passing) :
    op ≠ Opcode.goto := by
  rintro rfl
  cases h

/-- A guard holds no label, no load but its first instruction, and lies in the code. -/
theorem getElem?_of_guardAt?_of_lt (h : guardAt? slot code first = some guard) (hlt : first < index)
    (hlt' : index < first + guard.length) :
    ∃ instr, code[index]? = some instr ∧ instr.label? = none ∧ instr.localKind? = none := by
  obtain ⟨push, op, constant, exit, rest, hcode, hconstant, -, hlength, -, hplain, -⟩ := exists_window h
  obtain ⟨offset, rfl⟩ : ∃ offset, index = first + (offset + 1) := ⟨index - first - 1, by omega⟩
  have hoffset : offset < (push :: .jump op guard.target :: exit).length := by
    simp only [List.length_cons]
    omega
  have hindex : code[first + (offset + 1)]? = (push :: .jump op guard.target :: exit)[offset]? := by
    rw [← List.getElem?_drop, hcode, List.getElem?_cons_succ, ← List.cons_append, ← List.cons_append]
    exact List.getElem?_append_left hoffset
  rw [hindex]
  have hmem : ∀ instr ∈ push :: .jump op guard.target :: exit, instr.label? = none ∧ instr.localKind? = none := by
    intro instr hinstr
    rcases List.mem_cons.1 hinstr with rfl | hinstr
    · have hpush := isPlain_of_intConstant? hconstant
      exact ⟨hpush.1, hpush.2.2⟩
    · rcases List.mem_cons.1 hinstr with rfl | hexit
      · exact ⟨rfl, rfl⟩
      · exact ⟨(hplain instr hexit).1, (hplain instr hexit).2.2⟩
  exact ⟨_, List.getElem?_eq_getElem hoffset, hmem _ (List.getElem_mem hoffset)⟩

theorem Inside.exists_instr (h : Inside slot code index) :
    ∃ instr, code[index]? = some instr ∧ instr.label? = none ∧ instr.localKind? = none := by
  obtain ⟨first, hlt, guard, hguard, hlt'⟩ := h
  exact getElem?_of_guardAt?_of_lt hguard hlt hlt'

theorem inside_of_lt (h : guardAt? slot code first = some guard) {offset : Nat} (hpos : 0 < offset) (hlt : offset < 4) :
    Inside slot code (first + offset) := by
  obtain ⟨push, op, constant, exit, rest, -, -, -, hlength, hexit, -⟩ := exists_window h
  exact ⟨first, by omega, guard, h, by omega⟩

/-- Guards do not overlap. -/
theorem Inside.guardAt?_eq_none (h : Inside slot code index) : guardAt? slot code index = none := by
  obtain ⟨instr, hinstr, -, hlocal⟩ := h.exists_instr
  by_contra hguard
  obtain ⟨guard, hguard⟩ := Option.ne_none_iff_exists'.1 hguard
  obtain rfl := Option.some.inj (hinstr.symm.trans (getElem?_of_guardAt? hguard))
  cases hlocal

theorem not_inside_of_guardAt? (h : guardAt? slot code index = some guard) : ¬ Inside slot code index := by
  intro hinside
  rw [hinside.guardAt?_eq_none] at h
  cases h

theorem not_inside_of_label {l : Label} (h : code[index]? = some (.label l)) : ¬ Inside slot code index := by
  intro hinside
  obtain ⟨instr, hinstr, hlabel, -⟩ := hinside.exists_instr
  obtain rfl := Option.some.inj (hinstr.symm.trans h)
  cases hlabel

theorem not_inside_of_place? {l : Label} (h : place? (labelPlaces code) l = some index) : ¬ Inside slot code index :=
  not_inside_of_label (place?_labelPlaces h)

theorem not_inside_zero : ¬ Inside slot code 0 := by
  rintro ⟨first, hlt, -⟩
  omega

/-- After an instruction that belongs to no guard comes none from the middle of one. -/
theorem not_inside_succ (h : ¬ Inside slot code index) (hguard : guardAt? slot code index = none) :
    ¬ Inside slot code (index + 1) := by
  rintro ⟨first, hlt, guard, hmem, hlt'⟩
  rcases Nat.lt_succ_iff_lt_or_eq.1 hlt with hbefore | rfl
  · exact h ⟨first, hbefore, guard, hmem, by omega⟩
  · rw [hguard] at hmem
    cases hmem

end Windows

section Layout

/-- What becomes of the instruction at an index. -/
def block (slot : UInt16) (code : List Instr) (instr : Instr) (index : Nat) : List Instr :=
  if Inside slot code index then [] else
    match guardAt? slot code index with
    | some guard => [.jump Opcode.goto guard.target]
    | none => [instr]

/-- What becomes of each instruction. -/
def blocks (slot : UInt16) (code : List Instr) : List (List Instr) :=
  code.zipIdx.map fun p => block slot code p.1 p.2

/-- The place of an instruction after guards are removed. -/
def moved (slot : UInt16) (code : List Instr) (index : Nat) : Nat :=
  blockStart (blocks slot code) index

theorem block_of_guard (h : guardAt? slot code index = some guard) (instr : Instr) :
    block slot code instr index = [.jump Opcode.goto guard.target] := by
  rw [block, if_neg (not_inside_of_guardAt? h), h]

theorem block_of_none (h : guardAt? slot code index = none) (hinside : ¬ Inside slot code index) (instr : Instr) :
    block slot code instr index = [instr] := by
  rw [block, if_neg hinside, h]

variable {front : List Instr}

/-- No guard of the front reaches beyond it. -/
def Closed (slot : UInt16) (front rest : List Instr) : Prop :=
  ∀ first < front.length, ∀ guard ∈ guardAt? slot (front ++ rest) first, first + guard.length ≤ front.length

theorem guardAt?_append (slot : UInt16) (front rest : List Instr) (index : Nat) :
    guardAt? slot (front ++ rest) (front.length + index) = guardAt? slot rest index := by
  rw [guardAt?, guardAt?, ← List.drop_drop, List.drop_left]

theorem inside_append (h : Closed slot front rest) (index : Nat) :
    Inside slot (front ++ rest) (front.length + index) ↔ Inside slot rest index := by
  constructor
  · rintro ⟨first, hlt, guard, hguard, hlt'⟩
    by_cases hfront : first < front.length
    · have := h first hfront guard hguard
      omega
    · obtain ⟨offset, rfl⟩ := Nat.exists_eq_add_of_le (Nat.le_of_not_lt hfront)
      rw [guardAt?_append] at hguard
      exact ⟨offset, by omega, guard, hguard, by omega⟩
  · rintro ⟨first, hlt, guard, hguard, hlt'⟩
    rw [← guardAt?_append slot front] at hguard
    exact ⟨front.length + first, by omega, guard, hguard, by omega⟩

/-- Code falls into parts where no guard crosses the border. -/
theorem blocks_append (h : Closed slot front rest) : blocks slot (front ++ rest) =
    front.zipIdx.map (fun p => block slot (front ++ rest) p.1 p.2) ++ blocks slot rest := by
  rw [blocks, List.zipIdx_append, List.map_append, Nat.zero_add, blocks]
  congr 1
  rw [List.zipIdx_eq_map_add, List.map_map]
  apply List.map_congr_left
  rintro ⟨instr, index⟩ -
  simp only [Function.comp_apply, block, inside_append h, guardAt?_append]

theorem guards_append (slot : UInt16) (front rest : List Instr) :
    (List.range (front ++ rest).length).filterMap (guardAt? slot (front ++ rest)) =
      (List.range front.length).filterMap (guardAt? slot (front ++ rest)) ++
        (List.range rest.length).filterMap (guardAt? slot rest) := by
  rw [List.length_append, List.range_add, List.filterMap_append, List.filterMap_map]
  congr 2
  funext index
  exact guardAt?_append slot front rest index

/-- Code before which no guard begins. -/
theorem closed_single (h : ofCode? slot (instr :: rest) = none) : Closed slot [instr] rest := by
  intro first hlt guard hguard
  obtain rfl : first = 0 := by simpa using hlt
  rw [show guardAt? slot ([instr] ++ rest) 0 = none from h] at hguard
  cases hguard

/-- A guard ends where it ends. -/
theorem closed_window (h : guardAt? slot (front ++ rest) 0 = some guard) (hlength : front.length = guard.length) :
    Closed slot front rest := by
  intro first hlt other hother
  rcases Nat.eq_zero_or_pos first with rfl | hpos
  · obtain rfl := Option.some.inj (h.symm.trans hother)
    omega
  · have hinside : Inside slot (front ++ rest) first := ⟨0, hpos, guard, h, by omega⟩
    rw [hinside.guardAt?_eq_none] at hother
    cases hother

theorem flatten_window (h : guardAt? slot (front ++ rest) 0 = some guard) (hlength : front.length = guard.length) :
    (front.zipIdx.map fun p => block slot (front ++ rest) p.1 p.2).flatten =
      [.jump Opcode.goto guard.target] ∧
    (List.range front.length).filterMap (guardAt? slot (front ++ rest)) = [guard] := by
  have hinside : ∀ index, 0 < index → index < front.length → Inside slot (front ++ rest) index :=
    fun index hpos hlt => ⟨0, hpos, guard, h, by omega⟩
  cases front with
  | nil =>
      have := length_pos h
      rw [← hlength] at this
      cases this
  | cons load others =>
      constructor
      · have hothers : (others.zipIdx 1).map (fun p => block slot (load :: others ++ rest) p.1 p.2) =
            (others.zipIdx 1).map fun _ => [] := by
          apply List.map_congr_left
          rintro ⟨instr, index⟩ hmem
          obtain ⟨hle, hlt, -⟩ := List.mem_zipIdx hmem
          exact if_pos (hinside index (by omega) (by simp only [List.length_cons]; omega))
        rw [List.zipIdx_cons, List.map_cons, List.flatten_cons, Nat.zero_add, hothers, block_of_guard h]
        simp
      · rw [List.length_cons, List.range_succ_eq_map, List.filterMap_cons, h, List.filterMap_map]
        dsimp only
        rw [List.filterMap_eq_nil_iff.2]
        intro index hmem
        have hlt := List.mem_range.1 hmem
        exact (hinside (index + 1) (by omega) (by simp only [List.length_cons]; omega)).guardAt?_eq_none

/-- Removing guards changes each of them on its own. -/
theorem removeAll_eq (slot : UInt16) (code : List Instr) : removeAll slot code =
    ((blocks slot code).flatten, (List.range code.length).filterMap (guardAt? slot code)) := by
  fun_induction removeAll slot code with
  | case1 => rfl
  | case2 instr rest guard hguard shorter guards hrest ih =>
      obtain ⟨push, op, constant, exit, after, hcode, -, -, hlength, -⟩ := exists_window hguard
      have hafter : rest.drop (guard.length - 1) = after := by
        rw [(List.cons.inj hcode).2, hlength, Nat.add_comm 3, Nat.add_succ_sub_one]
        simp
      have hwindow : instr :: rest = (.var Opcode.iload slot :: push :: .jump op guard.target :: exit) ++ after := hcode
      have hlength' : (.var Opcode.iload slot :: push :: .jump op guard.target :: exit : List Instr).length =
          guard.length := by
        simp only [List.length_cons]
        omega
      rw [hwindow] at hguard ⊢
      obtain ⟨hjump, hfirst⟩ := flatten_window hguard hlength'
      rw [hrest, hafter] at ih
      rw [blocks_append (closed_window hguard hlength'), List.flatten_append, hjump, guards_append, hfirst]
      rw [Prod.mk.injEq] at ih
      rw [ih.1, ih.2]
      rfl
  | case3 instr rest hguard shorter guards hrest ih =>
      rw [hrest, Prod.mk.injEq] at ih
      have hnone : guardAt? slot ([instr] ++ rest) 0 = none := hguard
      have hguards : (List.range [instr].length).filterMap (guardAt? slot ([instr] ++ rest)) = [] :=
        List.filterMap_cons_none hnone
      have hsplit : instr :: rest = [instr] ++ rest := rfl
      rw [hsplit, blocks_append (closed_single hguard), List.flatten_append, guards_append, hguards, ih.1, ih.2]
      rw [List.zipIdx_singleton, List.map_singleton, block_of_none hnone not_inside_zero]
      rfl

end Layout

section Places

theorem getElem?_blocks (slot : UInt16) (hinstr : code[index]? = some instr) :
    (blocks slot code)[index]? = some (block slot code instr index) := by
  simp [blocks, hinstr]

/-- What is not from the middle of a guard becomes one instruction. -/
theorem exists_block (h : ¬ Inside slot code index) (instr : Instr) :
    ∃ kept, block slot code instr index = [kept] := by
  cases hguard : guardAt? slot code index with
  | none => exact ⟨instr, block_of_none hguard h instr⟩
  | some guard => exact ⟨_, block_of_guard hguard instr⟩

theorem keepsLabels_blocks (slot : UInt16) (code : List Instr) : KeepsLabels code (blocks slot code) := by
  refine keepsLabels_of_getElem? (by simp [blocks]) fun index instr kept hinstr hkept => ?_
  obtain rfl := Option.some.inj ((getElem?_blocks slot hinstr).symm.trans hkept)
  by_cases hlabel : ∃ l, instr = .label l
  · obtain ⟨l, rfl⟩ := hlabel
    refine .inl ⟨l, rfl, block_of_none ?_ (not_inside_of_label hinstr) _⟩
    by_contra hguard
    obtain ⟨guard, hguard⟩ := Option.ne_none_iff_exists'.1 hguard
    cases hinstr.symm.trans (getElem?_of_guardAt? hguard)
  · refine .inr ⟨fun l hl => hlabel ⟨l, hl⟩, fun l hl => ?_⟩
    unfold block at hl
    split at hl
    · cases hl
    · split at hl
      · cases List.mem_singleton.1 hl
      · exact hlabel ⟨l, (List.mem_singleton.1 hl).symm⟩

theorem place?_removeAll (slot : UInt16) (code : List Instr) (l : Label) :
    place? (labelPlaces (removeAll slot code).1) l = (place? (labelPlaces code) l).map (moved slot code) := by
  rw [removeAll_eq]
  exact place?_flatten (keepsLabels_blocks slot code) l

theorem moved_succ (hinstr : code[index]? = some instr) (h : ¬ Inside slot code index) :
    moved slot code (index + 1) = moved slot code index + 1 := by
  obtain ⟨kept, hkept⟩ := exists_block h instr
  have hblock := getElem?_blocks slot hinstr
  rw [hkept] at hblock
  exact blockStart_succ hblock

/-- Indexes up to the end that are not in the middle of a guard go to different places. -/
theorem moved_lt {other : Nat} (h : ¬ Inside slot code index) (hlt : index < other) (hle : other ≤ code.length) :
    moved slot code index < moved slot code other := by
  have hinstr := List.getElem?_eq_getElem (Nat.lt_of_lt_of_le hlt hle)
  have hnext : moved slot code (index + 1) ≤ moved slot code other := blockStart_mono hlt
  rw [moved_succ hinstr h] at hnext
  exact hnext

theorem moved_inj {other : Nat} (h : ¬ Inside slot code index) (h' : ¬ Inside slot code other)
    (hle : index ≤ code.length) (hle' : other ≤ code.length) (heq : moved slot code index = moved slot code other) :
    index = other := by
  rcases Nat.lt_trichotomy index other with hlt | hsame | hgt
  · exact absurd heq (Nat.ne_of_lt (moved_lt h hlt hle'))
  · exact hsame
  · exact absurd heq.symm (Nat.ne_of_lt (moved_lt h' hgt hle))

/-- An instruction that belongs to no guard stays, and the end stays the end. -/
theorem getElem?_moved (h : ¬ Inside slot code index) (hguard : guardAt? slot code index = none) :
    (removeAll slot code).1[moved slot code index]? = code[index]? := by
  rw [removeAll_eq, moved]
  cases hinstr : code[index]? with
  | none =>
      have hlength : (blocks slot code).length ≤ index := by
        rw [List.getElem?_eq_none_iff] at hinstr
        simpa [blocks] using hinstr
      rw [blockStart, List.take_of_length_le hlength, List.getElem?_eq_none (Nat.le_refl _)]
  | some instr =>
      have hblock := getElem?_blocks slot hinstr
      rw [block_of_none hguard h] at hblock
      exact getElem?_flatten_blockStart hblock Nat.zero_lt_one

/-- A guard becomes a jump to where it leads when it is passed. -/
theorem getElem?_moved_of_guard (h : guardAt? slot code index = some guard) :
    (removeAll slot code).1[moved slot code index]? = some (.jump Opcode.goto guard.target) := by
  have hblock := getElem?_blocks slot (getElem?_of_guardAt? h)
  rw [block_of_guard h] at hblock
  rw [removeAll_eq, moved]
  exact getElem?_flatten_blockStart hblock Nat.zero_lt_one

end Places

section Labels

theorem labelsIn_flatten {blocks : List (List Instr)} (h : KeepsLabels code blocks) :
    labelsIn blocks.flatten = labelsIn code := by
  induction h with
  | nil => rfl
  | @cons instr block code blocks hblock _ ih =>
      rw [List.flatten_cons, labelsIn_append, ih, ← List.singleton_append, labelsIn_append]
      congr 1
      rcases hblock with ⟨l, rfl, rfl⟩ | ⟨hinstr, hnone⟩
      · rfl
      · rw [labelsIn_eq_nil hnone, labelsIn_eq_nil fun l hl => hinstr l (List.mem_singleton.1 hl).symm]

/-- Removing guards keeps all labels and jumps to no others. -/
theorem labelsIn_removeAll (slot : UInt16) (code : List Instr) :
    labelsIn (removeAll slot code).1 = labelsIn code ∧
      ∀ instr ∈ (removeAll slot code).1, ∀ l ∈ instr.targets, ∃ instr' ∈ code, l ∈ instr'.targets := by
  rw [removeAll_eq]
  refine ⟨labelsIn_flatten (keepsLabels_blocks slot code), fun kept hkept l hl => ?_⟩
  obtain ⟨whole, hwhole, hkept⟩ := List.mem_flatten.1 hkept
  obtain ⟨⟨instr, index⟩, hmem, rfl⟩ := List.mem_map.1 hwhole
  have hinstr := List.mem_zipIdx_iff_getElem?.1 hmem
  by_cases hinside : Inside slot code index
  · rw [block, if_pos hinside] at hkept
    cases hkept
  · cases hguard : guardAt? slot code index with
    | none =>
        rw [block_of_none hguard hinside, List.mem_singleton] at hkept
        rw [hkept] at hl
        exact ⟨instr, List.mem_of_getElem? hinstr, hl⟩
    | some guard =>
        rw [block_of_guard hguard, List.mem_singleton] at hkept
        obtain ⟨push, op, constant, -, -, hcompare, -⟩ := exists_instrs hguard
        rw [hkept] at hl
        exact ⟨.jump op guard.target, List.mem_of_getElem? hcompare, hl⟩

end Labels

section Again

/-- What is left of some code begins as the code does, up to the first plain jump. -/
theorem exists_of_removeAll_eq {kept more : List Instr} (hkept : ∀ target, .jump Opcode.goto target ∉ kept)
    (h : (removeAll slot code).1 = kept ++ more) : ∃ rest, code = kept ++ rest := by
  induction kept generalizing code with
  | nil => exact ⟨code, rfl⟩
  | cons instr others ih =>
      cases code with
      | nil =>
          rw [removeAll] at h
          cases h
      | cons first rest =>
          rw [removeAll] at h
          split at h
          · next guard _ =>
              obtain ⟨rfl, -⟩ := List.cons.inj h
              exact absurd List.mem_cons_self (hkept guard.target)
          · obtain ⟨rfl, hrest⟩ := List.cons.inj h
            obtain ⟨after, rfl⟩ := ih (fun target hmem => hkept target (List.mem_cons_of_mem _ hmem)) hrest
            exact ⟨after, rfl⟩

/-- A guard that begins with an instruction of some code is not made by the removal of others. -/
theorem ofCode?_removeAll (h : ofCode? slot (instr :: rest) = none) :
    ofCode? slot (instr :: (removeAll slot rest).1) = none := by
  by_contra hsome
  obtain ⟨guard, hguard⟩ := Option.ne_none_iff_exists'.1 hsome
  obtain ⟨push, op, constant, exit, more, hcode, hconstant, hpassing, -, -, hplain, hagain⟩ := exists_window hguard
  obtain ⟨rfl, hrest⟩ := List.cons.inj hcode
  have hkept : ∀ target, .jump Opcode.goto target ∉ push :: .jump op guard.target :: exit := by
    intro target hmem
    rcases List.mem_cons.1 hmem with rfl | hmem
    · cases hconstant
    · rcases List.mem_cons.1 hmem with heq | hmem
      · exact not_isJump_of_passing? hpassing (Instr.jump.inj heq).1.symm
      · cases (hplain _ hmem).2.1
  obtain ⟨after, rfl⟩ : ∃ after, rest = (push :: .jump op guard.target :: exit) ++ after :=
    exists_of_removeAll_eq hkept hrest
  cases h.symm.trans (hagain after)

theorem removeAll_cons (h : ofCode? slot (instr :: rest) = none) :
    removeAll slot (instr :: rest) = (instr :: (removeAll slot rest).1, (removeAll slot rest).2) := by
  rw [removeAll, h]

/-- No guard is left for a second run. -/
theorem removeAll_removeAll (slot : UInt16) (code : List Instr) :
    removeAll slot (removeAll slot code).1 = ((removeAll slot code).1, []) := by
  fun_induction removeAll slot code with
  | case1 => rw [removeAll]
  | case2 instr rest guard hguard shorter guards hrest ih =>
      rw [hrest] at ih
      rw [removeAll_cons rfl, ih]
  | case3 instr rest hguard shorter guards hrest ih =>
      have hnone := ofCode?_removeAll hguard
      rw [hrest] at ih hnone
      rw [removeAll_cons hnone, ih]

end Again

end Unscramble.Guard
