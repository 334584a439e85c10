/-
The class names in written descriptors.  Renaming classes in a descriptor changes nothing but these names, so two
descriptors become the same text only if their names do.
-/
import Unscramble.Proofs.TrailingInts

namespace Unscramble.Descriptor

/-- The class names in a written descriptor: each text between an L and the next semicolon. -/
def namesIn (input : List Char) : List String :=
  match input with
  | [] => []
  | 'L' :: rest =>
      match h : splitAtSemicolon rest with
      | none => []
      | some (name, tail) =>
          have := splitAtSemicolon_length h
          String.ofList name :: namesIn tail
  | _ :: rest => namesIn rest
termination_by input.length

/-- The class names in a descriptor. -/
def names (descriptor : String) : List String :=
  namesIn descriptor.toList

/-- A class name under a renaming. -/
def renamed (rename : String → Option String) (name : String) : String :=
  (rename name).getD name

theorem splitAtSemicolon_eq_none {input : List Char} : splitAtSemicolon input = none ↔ ';' ∉ input := by
  fun_induction splitAtSemicolon input with
  | case1 => simp
  | case2 => simp
  | case3 c rest hc ih =>
      have hne : ';' ≠ c := fun heq => hc (heq ▸ rfl)
      rw [Option.map_eq_none_iff, ih, List.mem_cons, not_or]
      exact ⟨fun h => ⟨hne, h⟩, fun h => h.2⟩

theorem semicolon_not_mem {input name rest : List Char} (h : splitAtSemicolon input = some (name, rest)) :
    ';' ∉ name := by
  fun_induction splitAtSemicolon input generalizing name rest with
  | case1 => cases h
  | case2 =>
      obtain ⟨rfl, -⟩ := Prod.mk.inj (Option.some.inj h)
      simp
  | case3 c tail hc ih =>
      obtain ⟨⟨front, back⟩, hsplit, heq⟩ := Option.map_eq_some_iff.1 h
      obtain ⟨rfl, -⟩ := Prod.mk.inj heq
      rw [List.mem_cons, not_or]
      exact ⟨fun heq => hc (heq ▸ rfl), ih hsplit⟩

variable {rename : String → Option String} {name tail rest input other : List Char}

theorem mapChars_class (h : splitAtSemicolon rest = some (name, tail)) :
    mapChars rename ('L' :: rest) =
      'L' :: ((renamed rename (String.ofList name)).toList ++ ';' :: mapChars rename tail) := by
  rw [mapChars]
  split
  · next hnone => rw [h] at hnone; cases hnone
  · next name' tail' hsome =>
      rw [h] at hsome
      obtain ⟨rfl, rfl⟩ := Prod.mk.inj (Option.some.inj hsome)
      cases hnew : rename (String.ofList name) with
      | none => simp [renamed, hnew]
      | some new => simp [renamed, hnew]

theorem mapChars_open (h : splitAtSemicolon rest = none) : mapChars rename ('L' :: rest) = 'L' :: rest := by
  rw [mapChars]
  split
  · rfl
  · next hsome => rw [h] at hsome; cases hsome

theorem namesIn_class (h : splitAtSemicolon rest = some (name, tail)) :
    namesIn ('L' :: rest) = String.ofList name :: namesIn tail := by
  rw [namesIn]
  split
  · next hnone => rw [h] at hnone; cases hnone
  · next name' tail' hsome =>
      rw [h] at hsome
      obtain ⟨rfl, rfl⟩ := Prod.mk.inj (Option.some.inj hsome)
      rfl

theorem mapChars_other {c : Char} (hc : c ≠ 'L') :
    mapChars rename (c :: rest) = c :: mapChars rename rest := by
  rw [mapChars.eq_def]
  split
  · next heq => cases heq
  · next heq => exact absurd (List.cons.inj heq).1 hc
  · next heq =>
      obtain ⟨rfl, rfl⟩ := List.cons.inj heq
      rfl

theorem namesIn_other {c : Char} (hc : c ≠ 'L') : namesIn (c :: rest) = namesIn rest := by
  rw [namesIn.eq_def]
  split
  · next heq => cases heq
  · next heq => exact absurd (List.cons.inj heq).1 hc
  · next heq =>
      obtain ⟨rfl, rfl⟩ := List.cons.inj heq
      rfl

/-- Only class names change, so the first character stays. -/
theorem head?_mapChars (rename : String → Option String) (input : List Char) :
    (mapChars rename input).head? = input.head? := by
  fun_cases mapChars rename input with
  | case1 => rfl
  | case2 => rfl
  | case3 => rfl
  | case4 => rfl

section Apart

variable (hplain : ∀ name new, rename name = some new → ';' ∉ new.toList)

include hplain

theorem semicolon_not_mem_renamed (h : splitAtSemicolon rest = some (name, tail)) :
    ';' ∉ (renamed rename (String.ofList name)).toList := by
  cases hsome : rename (String.ofList name) with
  | none => simpa [renamed, hsome] using semicolon_not_mem h
  | some new => simpa [renamed, hsome] using hplain _ _ hsome

/-- A renaming that keeps the names in two descriptors apart, and puts no semicolon into a name, keeps the descriptors
apart. -/
theorem mapChars_inj
    (hnames : ∀ a ∈ namesIn input, ∀ b ∈ namesIn other, renamed rename a = renamed rename b → a = b)
    (h : mapChars rename input = mapChars rename other) : input = other := by
  induction hlength : input.length using Nat.strongRecOn generalizing input other with
  | ind length ih =>
    have hhead := congrArg List.head? h
    rw [head?_mapChars, head?_mapChars] at hhead
    match input, other with
    | [], [] => rfl
    | [], _ :: _ => cases hhead
    | _ :: _, [] => cases hhead
    | c :: rest, c' :: rest' =>
        obtain rfl : c = c' := Option.some.inj hhead
        by_cases hc : c = 'L'
        · subst hc
          cases hsplit : splitAtSemicolon rest with
          | none =>
              have hopen := splitAtSemicolon_eq_none.1 hsplit
              cases hsplit' : splitAtSemicolon rest' with
              | none => rwa [mapChars_open hsplit, mapChars_open hsplit'] at h
              | some parts =>
                  rw [mapChars_open hsplit, mapChars_class hsplit'] at h
                  exact absurd ((List.cons.inj h).2 ▸ by simp) hopen
          | some parts =>
              obtain ⟨name, tail⟩ := parts
              cases hsplit' : splitAtSemicolon rest' with
              | none =>
                  have hopen := splitAtSemicolon_eq_none.1 hsplit'
                  rw [mapChars_open hsplit', mapChars_class hsplit] at h
                  exact absurd ((List.cons.inj h).2 ▸ by simp) hopen
              | some parts' =>
                  obtain ⟨name', tail'⟩ := parts'
                  rw [mapChars_class hsplit, mapChars_class hsplit'] at h
                  obtain ⟨hname, htail⟩ := append_cons_inj (semicolon_not_mem_renamed hplain hsplit)
                    (semicolon_not_mem_renamed hplain hsplit') (List.cons.inj h).2
                  rw [namesIn_class hsplit, namesIn_class hsplit'] at hnames
                  have hsame := hnames _ List.mem_cons_self _ List.mem_cons_self (String.toList_inj.1 hname)
                  have hless := splitAtSemicolon_length hsplit
                  have hrest := ih tail.length (by rw [List.length_cons] at hlength; omega)
                    (fun a ha b hb => hnames a (List.mem_cons_of_mem _ ha) b (List.mem_cons_of_mem _ hb)) htail rfl
                  rw [splitAtSemicolon_eq hsplit, splitAtSemicolon_eq hsplit', hrest, String.ofList_inj.1 hsame]
        · rw [mapChars_other hc, mapChars_other hc] at h
          rw [namesIn_other hc, namesIn_other hc] at hnames
          have hless : rest.length < length := by rw [← hlength, List.length_cons]; omega
          rw [ih rest.length hless hnames (List.cons.inj h).2 rfl]

/-- The same of descriptors as texts. -/
theorem mapNames_inj {descriptor descriptor' : String}
    (hnames : ∀ a ∈ names descriptor, ∀ b ∈ names descriptor', renamed rename a = renamed rename b → a = b)
    (h : mapNames rename descriptor = mapNames rename descriptor') : descriptor = descriptor' :=
  String.toList_inj.1 (mapChars_inj hplain hnames (String.ofList_inj.1 h))

end Apart

end Unscramble.Descriptor
