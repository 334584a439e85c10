/-
Removing trailing parameters, step by step: where the search for a candidate leads, which methods a group has, and what
becomes of the calls in some code.
-/
import Unscramble.Proofs.MethodPlaces
import Unscramble.Proofs.Tables

namespace Unscramble

/-- A name that can stand before the dot of a written reference. -/
def isPlainOwner (owner : String) : Bool :=
  !owner.toList.contains '.'

/-- The name and the type of a method as a class file has them: the name has no parenthesis, with which the type
begins. -/
def isPlainMethod (name descriptor : String) : Bool :=
  !name.toList.contains '(' && descriptor.toList.head? == some '('

theorem append_cons_inj {α : Type} {mark : α} {front front' back back' : List α} (hfront : mark ∉ front)
    (hfront' : mark ∉ front') (h : front ++ mark :: back = front' ++ mark :: back') :
    front = front' ∧ back = back' := by
  induction front generalizing front' with
  | nil =>
      cases front' with
      | nil => exact ⟨rfl, (List.cons.inj h).2⟩
      | cons a rest =>
          obtain ⟨rfl, -⟩ := List.cons.inj h
          simp at hfront'
  | cons a rest ih =>
      cases front' with
      | nil =>
          obtain ⟨rfl, -⟩ := List.cons.inj h
          simp at hfront
      | cons a' rest' =>
          obtain ⟨rfl, htail⟩ := List.cons.inj h
          obtain ⟨rfl, rfl⟩ := ih (fun hmem => hfront (List.mem_cons_of_mem _ hmem))
            (fun hmem => hfront' (List.mem_cons_of_mem _ hmem)) htail
          exact ⟨rfl, rfl⟩

/-- The written identity of a method tells its class, its name and its type. -/
theorem methodKey_inj {ref ref' : MemberRef} (howner : isPlainOwner ref.owner = true)
    (howner' : isPlainOwner ref'.owner = true) (hmethod : isPlainMethod ref.name ref.descriptor = true)
    (hmethod' : isPlainMethod ref'.name ref'.descriptor = true) (h : ref.methodKey = ref'.methodKey) :
    ref = ref' := by
  obtain ⟨owner, name, descriptor⟩ := ref
  obtain ⟨owner', name', descriptor'⟩ := ref'
  simp only [isPlainOwner, isPlainMethod, Bool.not_eq_true', Bool.and_eq_true, List.contains_eq_mem,
    decide_eq_false_iff_not, beq_iff_eq] at howner howner' hmethod hmethod'
  obtain ⟨hname, hdescriptor⟩ := hmethod
  obtain ⟨hname', hdescriptor'⟩ := hmethod'
  obtain ⟨type, htype⟩ := List.head?_eq_some_iff.1 hdescriptor
  obtain ⟨type', htype'⟩ := List.head?_eq_some_iff.1 hdescriptor'
  have hchars : owner.toList ++ '.' :: (name.toList ++ '(' :: type) =
      owner'.toList ++ '.' :: (name'.toList ++ '(' :: type') := by
    have := congrArg String.toList h
    simpa [MemberRef.methodKey, htype, htype'] using this
  obtain ⟨howners, hrest⟩ := append_cons_inj howner howner' hchars
  obtain ⟨hnames, htypes⟩ := append_cons_inj hname hname' hrest
  rw [String.toList_inj.1 howners, String.toList_inj.1 hnames,
    String.toList_inj.1 (show descriptor.toList = descriptor'.toList by rw [htype, htype', htypes])]

namespace Descriptor

theorem splitAtSemicolon_eq {input name rest : List Char} (h : splitAtSemicolon input = some (name, rest)) :
    input = name ++ ';' :: rest := by
  fun_induction splitAtSemicolon input generalizing name rest with
  | case1 => cases h
  | case2 tail =>
      obtain ⟨rfl, rfl⟩ := Prod.mk.inj (Option.some.inj h)
      rfl
  | case3 c tail _ ih =>
      obtain ⟨⟨front, back⟩, hsplit, heq⟩ := Option.map_eq_some_iff.1 h
      obtain ⟨rfl, rfl⟩ := Prod.mk.inj heq
      rw [ih hsplit, List.cons_append]

theorem splitParameter_eq {input part rest : List Char} (h : splitParameter input = .ok (part, rest)) :
    input = part ++ rest ∧ part ≠ [] := by
  have hinput := (List.takeWhile_append_dropWhile (p := (· == '[')) (l := input)).symm
  simp only [splitParameter] at h
  split at h
  · cases h
  · next tail hdrop =>
      split at h
      · next name back hsplit =>
          obtain ⟨rfl, rfl⟩ := Prod.mk.inj (Except.ok.inj h)
          rw [hdrop, splitAtSemicolon_eq hsplit] at hinput
          exact ⟨by simpa using hinput, by simp⟩
      · cases h
  · next c tail _ hdrop =>
      split at h
      · obtain ⟨rfl, rfl⟩ := Prod.mk.inj (Except.ok.inj h)
        rw [hdrop] at hinput
        exact ⟨by simpa using hinput, by simp⟩
      · cases h

theorem splitParameters_eq {input : List Char} {parts : List (List Char)}
    (h : splitParameters input = .ok parts) : input = parts.flatten ∧ ∀ part ∈ parts, part ≠ [] := by
  fun_induction splitParameters input generalizing parts with
  | case1 input hempty =>
      obtain rfl := Except.ok.inj h
      exact ⟨by simpa using hempty, nofun⟩
  | case2 => cases h
  | case3 input _ part rest hpart _ ih =>
      obtain ⟨others, hothers, rfl⟩ := map_eq_ok.1 h
      obtain ⟨hinput, hnonempty⟩ := splitParameter_eq hpart
      obtain ⟨hrest, hall⟩ := ih hothers
      refine ⟨by rw [hinput, hrest, List.flatten_cons], fun other hother => ?_⟩
      rcases List.mem_cons.1 hother with rfl | hother
      · exact hnonempty
      · exact hall other hother

/-- A type without its last parameter is another type. -/
theorem dropLastParameter_ne {descriptor shorter : String} (h : dropLastParameter descriptor = .ok shorter) :
    shorter ≠ descriptor := by
  rintro rfl
  simp only [dropLastParameter] at h
  split at h
  · next body hbody =>
      split at h
      · cases h
      · next mark result hresult =>
          split at h
          · cases h
          · cases h
          · cases h
          · next parts hne hparts =>
              obtain ⟨hinput, hnonempty⟩ := splitParameters_eq hparts
              have hsome : parts ≠ [] := fun hnil => hne (hnil ▸ rfl)
              have hlast := List.length_pos_of_ne_nil (hnonempty _ (List.getLast_mem hsome))
              have hflatten : parts.flatten.length =
                  parts.dropLast.flatten.length + (parts.getLast hsome).length := by
                conv_lhs => rw [← List.dropLast_append_getLast hsome]
                rw [List.flatten_append, List.length_append, List.flatten_singleton]
              have hsplit := List.takeWhile_append_dropWhile (p := (· != ')')) (l := body)
              rw [hinput, hresult] at hsplit
              have hchars := congrArg String.toList (Except.ok.inj h)
              rw [String.toList_ofList, hbody, ← hsplit] at hchars
              have hlength := congrArg List.length hchars
              simp only [List.length_cons, List.length_append] at hlength
              omega
  · cases h

end Descriptor

namespace TrailingInt

section Search

variable {pool : ClassPool} {candidates : List String} {name descriptor owner found key : String}

/-- A class finds methods of a name in another one: in itself, or in its super types if they are no constructors. -/
def Sees (pool : ClassPool) (name owner found : String) : Prop :=
  owner = found ∨ name ≠ "<init>" ∧ pool.AtOrBelow owner found

theorem Sees.atOrBelow (h : Sees pool name owner found) : pool.AtOrBelow owner found := by
  rcases h with rfl | ⟨-, h⟩
  · exact .refl
  · exact h

theorem Sees.trans {higher : String} (h : Sees pool name owner found) (h' : Sees pool name found higher) :
    Sees pool name owner higher := by
  rcases h with rfl | ⟨hname, h⟩
  · exact h'
  · exact .inr ⟨hname, h.trans h'.atOrBelow⟩

/-- What a search gives is a candidate of a class that is seen. -/
theorem of_search {height : Nat} (h : search pool candidates name descriptor height owner = some key) :
    key ∈ candidates ∧ ∃ found, Sees pool name owner found ∧
      key = (MemberRef.mk found name descriptor).methodKey := by
  induction height generalizing owner with
  | zero => cases h
  | succ height ih =>
      simp only [search] at h
      split at h
      · next hmem =>
          obtain rfl := Option.some.inj h
          exact ⟨by simpa using hmem, owner, .inl rfl, rfl⟩
      · split at h
        · cases h
        · next hname =>
            obtain ⟨sup, hsup, hfound⟩ := List.exists_of_findSome?_eq_some h
            obtain ⟨hmem, found, hsees, heq⟩ := ih hfound
            exact ⟨hmem, found, .inr ⟨by simpa using hname, hsees.atOrBelow.head hsup⟩, heq⟩

/-- Without cycles a search that may climb high enough gives a candidate if a class above has one. -/
theorem isSome_search (hacyclic : pool.Acyclic) (hname : name ≠ "<init>") {height : Nat}
    (hheight : pool.height owner < height) (hbelow : pool.AtOrBelow owner found)
    (hmem : (MemberRef.mk found name descriptor).methodKey ∈ candidates) :
    (search pool candidates name descriptor height owner).isSome = true := by
  induction height generalizing owner with
  | zero => omega
  | succ height ih =>
      simp only [search]
      split
      · rfl
      · next hown =>
          rw [if_neg (by simpa using hname)]
          rcases Relation.ReflTransGen.cases_head_iff.1 hbelow with rfl | ⟨sup, hsup, hbelow⟩
          · exact absurd hmem (by simpa using hown)
          · have hlower := hacyclic.height_lt hsup
            rw [List.findSome?_isSome_iff]
            exact ⟨sup, hsup, ih (by omega) hbelow⟩

/-- A reference leads to a candidate exactly if it sees one. -/
theorem isSome_resolve (hacyclic : pool.Acyclic) {ref : MemberRef} (hsees : Sees pool ref.name ref.owner found)
    (hmem : (MemberRef.mk found ref.name ref.descriptor).methodKey ∈ candidates) :
    (resolve pool candidates ref).isSome = true := by
  rcases hsees with rfl | ⟨hname, hbelow⟩
  · rw [resolve, search, if_pos (by simpa using hmem)]
    rfl
  · exact isSome_search hacyclic hname (Nat.lt_succ_of_le (pool.height_le_size ref.owner)) hbelow hmem

theorem resolve_self {ref : MemberRef} (h : ref.methodKey ∈ candidates) :
    resolve pool candidates ref = some ref.methodKey := by
  rw [resolve, search, if_pos (by simpa using h)]

end Search

section Groups

variable {pool : ClassPool} {place : MethodPlace} {m : MethodDecl} {top : String}

theorem mem_tops : top ∈ tops pool →
    ∃ place m, pool.methodAt? place = some m ∧ top = (MemberRef.mk place.owner m.name m.descriptor).methodKey := by
  intro h
  obtain ⟨⟨c, m⟩, hmem, rfl⟩ := List.mem_map.1 h
  obtain ⟨hc, hm⟩ := ClassPool.mem_methods.1 (List.mem_filter.1 hmem).1
  obtain ⟨index, hindex⟩ := List.mem_iff_getElem?.1 hm
  refine ⟨⟨c.name, index⟩, m, ?_, rfl⟩
  rw [ClassPool.methodAt?, ClassPool.get?_eq_some.2 ⟨hc, rfl⟩]
  exact hindex

/-- The declaration highest up to which a method belongs. -/
def topOf? (pool : ClassPool) (place : MethodPlace) (m : MethodDecl) : Option String :=
  resolve pool (tops pool) ⟨place.owner, m.name, m.descriptor⟩

/-- All methods with the declaration highest up to which they belong. -/
def resolved (pool : ClassPool) : List (String × MethodPlace × MethodDecl) :=
  pool.placedMethods.filterMap fun (place, m) => (topOf? pool place m).map (·, (place, m))

theorem groups_eq (pool : ClassPool) : groups pool =
    ((resolved pool).map (·.1)).mergeSort.eraseDups.map fun top =>
      ⟨top, ((resolved pool).filter (·.1 == top)).map (·.2)⟩ :=
  rfl

theorem mem_resolved : (top, place, m) ∈ resolved pool ↔
    pool.methodAt? place = some m ∧ topOf? pool place m = some top := by
  simp only [resolved, List.mem_filterMap, Prod.exists, Option.map_eq_some_iff, Prod.mk.injEq,
    ClassPool.mem_placedMethods]
  constructor
  · rintro ⟨place', m', hat, top', htop, rfl, rfl, rfl⟩
    exact ⟨hat, htop⟩
  · rintro ⟨hat, htop⟩
    exact ⟨place, m, hat, top, htop, rfl, rfl, rfl⟩

/-- A selection that keeps what `h` tells of its items lists no more than all of them do. -/
theorem filterMap_sublist_map {α β : Type} {f : α → Option β} {h : α → β} (hf : ∀ a b, f a = some b → b = h a)
    (items : List α) : (items.filterMap f).Sublist (items.map h) := by
  induction items with
  | nil => exact .slnil
  | cons a rest ih =>
      rw [List.filterMap_cons, List.map_cons]
      cases hfa : f a with
      | none => exact ih.cons _
      | some b => exact hf a b hfa ▸ ih.cons_cons _

theorem nodup_resolved (pool : ClassPool) : ((resolved pool).map (·.2.1)).Nodup := by
  refine List.Sublist.nodup ?_ (ClassPool.nodup_placedMethods pool)
  rw [resolved, List.map_filterMap]
  refine filterMap_sublist_map ?_ _
  rintro ⟨place, m⟩ place' heq
  simp only [Option.map_map, Option.map_eq_some_iff] at heq
  obtain ⟨_, _, rfl⟩ := heq
  rfl

theorem mem_members {group : Group} (h : group ∈ groups pool) :
    (place, m) ∈ group.members ↔ pool.methodAt? place = some m ∧ topOf? pool place m = some group.top := by
  rw [groups_eq] at h
  obtain ⟨top, -, rfl⟩ := List.mem_map.1 h
  rw [← mem_resolved]
  simp

theorem mem_tops_of_mem_groups {group : Group} (h : group ∈ groups pool) : group.top ∈ tops pool := by
  rw [groups_eq] at h
  obtain ⟨top, htop, rfl⟩ := List.mem_map.1 h
  rw [List.mem_eraseDups, List.mem_mergeSort] at htop
  obtain ⟨⟨top, place, m⟩, hmem, rfl⟩ := List.mem_map.1 htop
  exact (of_search (mem_resolved.1 hmem).2).1

theorem nodup_tops_groups (pool : ClassPool) : ((groups pool).map Group.top).Nodup := by
  rw [groups_eq, List.map_map]
  simpa [Function.comp_def] using nodup_eraseDups _

variable {chosen : List Group}

/-- No method belongs to two groups. -/
theorem nodup_members (h : chosen.Sublist (groups pool)) :
    ((chosen.flatMap Group.members).map Prod.fst).Nodup := by
  rw [List.map_flatMap, List.nodup_flatMap]
  constructor
  · intro group hgroup
    have hmem := h.subset hgroup
    rw [groups_eq] at hmem
    obtain ⟨top, -, rfl⟩ := List.mem_map.1 hmem
    refine List.Sublist.nodup ?_ (nodup_resolved pool)
    rw [List.map_map]
    exact List.filter_sublist.map _
  · have hdistinct := (h.map Group.top).nodup (nodup_tops_groups pool)
    refine (List.Pairwise.and_mem.1 (List.pairwise_map.1 hdistinct)).imp ?_
    rintro group group' ⟨hgroup, hgroup', hne⟩ place hfirst hsecond
    obtain ⟨⟨_, m⟩, hm, rfl⟩ := List.mem_map.1 hfirst
    obtain ⟨⟨_, m'⟩, hm', rfl⟩ := List.mem_map.1 hsecond
    obtain ⟨hat, htop⟩ := (mem_members (h.subset hgroup)).1 hm
    obtain ⟨hat', htop'⟩ := (mem_members (h.subset hgroup')).1 hm'
    obtain rfl := Option.some.inj (hat.symm.trans hat')
    exact hne (Option.some.inj (htop.symm.trans htop'))

/-- The members of some groups are the methods that belong to their declarations. -/
theorem mem_flatMap_members (h : chosen.Sublist (groups pool)) (hat : pool.methodAt? place = some m) :
    place ∈ (chosen.flatMap Group.members).map Prod.fst ↔
      ∃ top ∈ chosen.map Group.top, topOf? pool place m = some top := by
  simp only [List.mem_map, List.mem_flatMap, Prod.exists, exists_and_right, exists_eq_right]
  constructor
  · rintro ⟨m', group, hgroup, hmem⟩
    obtain ⟨hat', htop⟩ := (mem_members (h.subset hgroup)).1 hmem
    obtain rfl := Option.some.inj (hat.symm.trans hat')
    exact ⟨group.top, ⟨group, hgroup, rfl⟩, htop⟩
  · rintro ⟨top, ⟨group, hgroup, rfl⟩, htop⟩
    exact ⟨m, group, hgroup, (mem_members (h.subset hgroup)).2 ⟨hat, htop⟩⟩

end Groups

section Calls

variable {leads : MemberRef → Bool} {place : MethodPlace}

def callRef? : Instr → Option MemberRef
  | .method _ ref _ => some ref
  | _ => none

/-- The calls in some code, in order. -/
def callRefs (code : List Instr) : List MemberRef :=
  code.filterMap callRef?

/-- What becomes of a call: its type loses the last parameter if the call leads to a method that loses its own. -/
def Rewritten (leads : MemberRef → Bool) (ref ref' : MemberRef) : Prop :=
  if leads ref then
    ∃ descriptor, Descriptor.dropLastParameter ref.descriptor = .ok descriptor ∧ ref' = { ref with descriptor }
  else ref' = ref

theorem callsIn_cons (place : MethodPlace) (previous : Option Instr) (index : Nat) (instr : Instr)
    (rest : List Instr) : callsIn place previous index (instr :: rest) =
      ((callRef? instr).map fun ref => ⟨place, index, ref, (previous.bind Instr.intConstant?).isSome⟩).toList ++
        callsIn place (some instr) (index + 1) rest := by
  cases instr <;> rfl

theorem exists_eq_method {instr : Instr} {ref : MemberRef} (h : callRef? instr = some ref) :
    ∃ op onInterface, instr = .method op ref onInterface := by
  cases instr with
  | method op ref' onInterface => exact ⟨op, onInterface, by rw [Option.some.inj h]⟩
  | _ => cases h

theorem dropArgument_append {front back result : List Instr} {op : Opcode} {ref : MemberRef} {onInterface : Bool}
    (hfront : front ≠ [])
    (h : dropArgument front.length (front ++ .method op ref onInterface :: back) = .ok result) :
    ∃ descriptor, Descriptor.dropLastParameter ref.descriptor = .ok descriptor ∧
      result = front.dropLast ++ .method op { ref with descriptor } onInterface :: back := by
  rw [dropArgument, List.getElem?_append_right (Nat.le_refl _), Nat.sub_self, List.getElem?_cons_zero] at h
  dsimp only at h
  split at h
  · cases h
  · next hlength => exact absurd (List.eq_nil_of_length_eq_zero hlength) hfront
  · next shorter before hshorter hlength =>
      obtain ⟨descriptor, hdescriptor, rfl⟩ := map_eq_ok.1 hshorter
      obtain rfl := Except.ok.inj h
      obtain rfl : before = front.length - 1 := by omega
      refine ⟨descriptor, hdescriptor, ?_⟩
      rw [List.set_append_right _ _ (Nat.le_refl _), Nat.sub_self, List.set_cons_zero,
        List.eraseIdx_append_of_lt_length (by omega), List.eraseIdx_length_sub_one]

/-- What becomes of code in which some calls change: the type of such a call loses its last parameter, and the constant
right in front of the call goes. -/
inductive Shortened (shortens : MemberRef → Bool) : List Instr → List Instr → Prop
  | nil : Shortened shortens [] []
  | keep {instr : Instr} {code code' : List Instr} (hkeep : ∀ ref, callRef? instr = some ref → shortens ref = false)
      (hrest : Shortened shortens code code') : Shortened shortens (instr :: code) (instr :: code')
  | shorten {push : Instr} {op : Opcode} {ref : MemberRef} {onInterface : Bool} {descriptor : String}
      {code code' : List Instr} (hconstant : push.intConstant?.isSome = true) (hshortens : shortens ref = true)
      (hdescriptor : Descriptor.dropLastParameter ref.descriptor = .ok descriptor)
      (hrest : Shortened shortens code code') :
      Shortened shortens (push :: .method op ref onInterface :: code)
        (.method op { ref with descriptor } onInterface :: code')

theorem callRef?_of_intConstant? {push : Instr} (h : push.intConstant?.isSome = true) : callRef? push = none := by
  cases push with
  | method => cases h
  | _ => rfl

/-- Calls change from the last one to the first.  Besides the instructions of `code` only a constant right before it
can go. -/
theorem foldrM_dropArgument {code front result : List Instr}
    (hconstant : ∀ call ∈ callsIn place front.getLast? front.length code, leads call.ref = true →
      call.afterConstant = true)
    (h : ((callsIn place front.getLast? front.length code).filter fun call => leads call.ref).foldrM
      (fun call code => dropArgument call.index code) (front ++ code) = .ok result) :
    ∃ kept code', result = kept ++ code' ∧ (kept = front ∧ Shortened leads code code' ∨
      ∃ push, front.getLast? = some push ∧ push.intConstant?.isSome = true ∧ kept = front.dropLast ∧
        Shortened leads (push :: code) code') := by
  induction code generalizing front result with
  | nil =>
      obtain rfl := Except.ok.inj h
      exact ⟨front, [], rfl, .inl ⟨rfl, .nil⟩⟩
  | cons instr rest ih =>
      rw [callsIn_cons] at h hconstant
      have hnext := @ih (front ++ [instr])
      rw [List.getLast?_concat, List.length_append, List.length_singleton, List.append_assoc,
        List.singleton_append, List.dropLast_concat] at hnext
      have hlater := fun call hcall => hconstant call (List.mem_append_right _ hcall)
      cases hcall : callRef? instr with
      | none =>
          rw [hcall] at h
          obtain ⟨kept, code', rfl, hkept⟩ := hnext hlater h
          rcases hkept with ⟨rfl, hrest⟩ | ⟨push, hpush, -, rfl, hrest⟩
          · exact ⟨front, instr :: code', by simp, .inl ⟨rfl, .keep (by simp [hcall]) hrest⟩⟩
          · obtain rfl := Option.some.inj hpush
            exact ⟨kept, code', rfl, .inl ⟨rfl, hrest⟩⟩
      | some ref =>
          obtain ⟨op, onInterface, rfl⟩ := exists_eq_method hcall
          rw [hcall, Option.map_some, Option.toList_some, List.singleton_append] at h hconstant
          -- The call itself is no constant, so a later call leaves it in its place.
          have hstays : ∀ push, some (Instr.method op ref onInterface) = some push →
              ¬push.intConstant?.isSome = true := by
            rintro push ⟨⟩ ⟨⟩
          by_cases hleads : leads ref = true
          · rw [List.filter_cons, if_pos hleads, List.foldrM_cons] at h
            obtain ⟨changed, hchanged, h⟩ := bind_eq_ok.1 h
            obtain ⟨kept, code', rfl, hkept⟩ := hnext hlater hchanged
            obtain ⟨rfl, hrest⟩ := hkept.resolve_right fun ⟨push, hpush, hsome, _⟩ => hstays push hpush hsome
            have hafter := hconstant _ List.mem_cons_self hleads
            obtain ⟨push, hpush, hsome⟩ : ∃ push, front.getLast? = some push ∧ push.intConstant?.isSome = true := by
              cases hlast : front.getLast? with
              | none => simp [hlast] at hafter
              | some push => exact ⟨push, rfl, by simpa [hlast] using hafter⟩
            have hfront : front ≠ [] := by
              rintro rfl
              cases hpush
            rw [List.append_assoc] at h
            obtain ⟨descriptor, hdescriptor, rfl⟩ := dropArgument_append hfront h
            exact ⟨front.dropLast, _, rfl, .inr ⟨push, hpush, hsome, rfl, .shorten hsome hleads hdescriptor hrest⟩⟩
          · rw [List.filter_cons, if_neg hleads] at h
            obtain ⟨kept, code', rfl, hkept⟩ := hnext hlater h
            obtain ⟨rfl, hrest⟩ := hkept.resolve_right fun ⟨push, hpush, hsome, _⟩ => hstays push hpush hsome
            refine ⟨front, .method op ref onInterface :: code', by simp, .inl ⟨rfl, .keep (fun ref' href => ?_) hrest⟩⟩
            rw [← Option.some.inj href]
            exact Bool.eq_false_iff.2 hleads

/-- What becomes of the code of a method. -/
theorem shortened_of_foldrM {code result : List Instr}
    (hconstant : ∀ call ∈ callsIn place none 0 code, leads call.ref = true → call.afterConstant = true)
    (h : ((callsIn place none 0 code).filter fun call => leads call.ref).foldrM
      (fun call code => dropArgument call.index code) code = .ok result) : Shortened leads code result := by
  obtain ⟨kept, code', rfl, hkept⟩ := @foldrM_dropArgument leads place code [] result hconstant h
  rcases hkept with ⟨rfl, hcode⟩ | ⟨push, hpush, -⟩
  · exact hcode
  · cases hpush

/-- What becomes of the calls in such code. -/
theorem Shortened.rewritten {code code' : List Instr} (h : Shortened leads code code') :
    List.Forall₂ (Rewritten leads) (callRefs code) (callRefs code') := by
  induction h with
  | nil => exact .nil
  | @keep instr code code' hkeep _ ih =>
      cases hcall : callRef? instr with
      | none => rwa [callRefs, callRefs, List.filterMap_cons_none hcall, List.filterMap_cons_none hcall]
      | some ref =>
          rw [callRefs, callRefs, List.filterMap_cons_some hcall, List.filterMap_cons_some hcall]
          refine .cons ?_ ih
          rw [Rewritten, hkeep ref hcall, if_neg Bool.false_ne_true]
  | shorten hconstant hshortens hdescriptor _ ih =>
      rw [callRefs, List.filterMap_cons_none (callRef?_of_intConstant? hconstant)]
      refine .cons ?_ ih
      rw [Rewritten, if_pos hshortens]
      exact ⟨_, hdescriptor, rfl⟩

/-- What becomes of the calls of a method. -/
theorem rewritten_of_foldrM {code result : List Instr}
    (hconstant : ∀ call ∈ callsIn place none 0 code, leads call.ref = true → call.afterConstant = true)
    (h : ((callsIn place none 0 code).filter fun call => leads call.ref).foldrM
      (fun call code => dropArgument call.index code) code = .ok result) :
    List.Forall₂ (Rewritten leads) (callRefs code) (callRefs result) :=
  (shortened_of_foldrM hconstant h).rewritten

end Calls

section Passes

variable {pool changed after : ClassPool} {p : MethodPlace} {m : MethodDecl} {chosen : List Group}

/-- A call that is found in code is at its place and has a reference of the code. -/
theorem mem_callsIn {place : MethodPlace} {previous : Option Instr} {index : Nat} {code : List Instr} {call : Call}
    (h : call ∈ callsIn place previous index code) : call.place = place ∧ call.ref ∈ callRefs code := by
  induction code generalizing previous index with
  | nil => cases h
  | cons instr rest ih =>
      rw [callsIn_cons, List.mem_append] at h
      rcases h with h | h
      · rw [Option.mem_toList, Option.map_eq_some_iff] at h
        obtain ⟨ref, href, rfl⟩ := h
        exact ⟨rfl, List.mem_filterMap.2 ⟨instr, List.mem_cons_self, href⟩⟩
      · obtain ⟨hplace, hmem⟩ := ih h
        obtain ⟨other, hother, href⟩ := List.mem_filterMap.1 hmem
        exact ⟨hplace, List.mem_filterMap.2 ⟨other, List.mem_cons_of_mem instr hother, href⟩⟩

/-- The calls of one method are those in its code. -/
theorem filter_calls (hat : pool.methodAt? p = some m) :
    (calls pool).filter (fun call => decide (call.place = p)) = callsIn p none 0 m.code := by
  obtain ⟨before, behind, heq⟩ := List.append_of_mem (ClassPool.mem_placedMethods.2 hat)
  have hnodup := ClassPool.nodup_placedMethods pool
  rw [heq, List.map_append, List.map_cons, List.nodup_append, List.nodup_cons] at hnodup
  have hother : ∀ others : List (MethodPlace × MethodDecl), p ∉ others.map Prod.fst →
      (others.flatMap fun (place, m) => callsIn place none 0 m.code).filter
        (fun call => decide (call.place = p)) = [] := by
    intro others hp
    rw [List.filter_eq_nil_iff]
    intro call hcall
    obtain ⟨⟨place, m⟩, hmem, hcall⟩ := List.mem_flatMap.1 hcall
    have hplace := (mem_callsIn hcall).1
    simp only [decide_eq_true_eq]
    rintro rfl
    exact hp (List.mem_map.2 ⟨(place, m), hmem, hplace.symm⟩)
  have hself : (callsIn p none 0 m.code).filter (fun call => decide (call.place = p)) =
      callsIn p none 0 m.code :=
    List.filter_eq_self.2 fun call hcall => decide_eq_true (mem_callsIn hcall).1
  rw [calls, heq, List.flatMap_append, List.flatMap_cons, List.filter_append, List.filter_append, hself,
    hother before fun hmem => hnodup.2.2 p hmem p List.mem_cons_self rfl, hother behind hnodup.2.1.1]
  simp

/-- Changing calls leaves in each method what the changes of its own calls make of its code. -/
theorem foldrM_sites {sites : List Call}
    (h : sites.foldrM (fun call pool => pool.changeMethod call.place fun m =>
      (dropArgument call.index m.code).map fun code => { m with code }) pool = .ok changed) :
    ClassPool.SameShape pool changed ∧ ∀ p m, pool.methodAt? p = some m → ∃ code,
      (sites.filter fun call => decide (call.place = p)).foldrM
        (fun call code => dropArgument call.index code) m.code = .ok code ∧
      changed.methodAt? p = some { m with code } := by
  induction sites generalizing changed with
  | nil =>
      obtain rfl := Except.ok.inj h
      exact ⟨.refl pool, fun p m hat => ⟨m.code, rfl, hat⟩⟩
  | cons call rest ih =>
      rw [List.foldrM_cons] at h
      obtain ⟨middle, hmiddle, h⟩ := bind_eq_ok.1 h
      obtain ⟨hshape, hcodes⟩ := ih hmiddle
      obtain ⟨hshape', hothers, hself⟩ := ClassPool.changeMethod_eq_ok h
      refine ⟨hshape.trans hshape', fun p m hat => ?_⟩
      obtain ⟨code, hcode, hat'⟩ := hcodes p m hat
      by_cases hp : call.place = p
      · subst hp
        obtain ⟨m', hm', hchanged⟩ := hself _ hat'
        obtain ⟨code', hcode', rfl⟩ := map_eq_ok.1 hm'
        refine ⟨code', ?_, hchanged⟩
        rw [List.filter_cons, if_pos (by simp), List.foldrM_cons]
        exact bind_eq_ok.2 ⟨code, hcode, hcode'⟩
      · refine ⟨code, ?_, by rw [hothers p (Ne.symm hp), hat']⟩
        rwa [List.filter_cons, if_neg (by simpa using hp)]

theorem afterCall_subset (pool : ClassPool) (candidates : List String) (call : Call) :
    afterCall pool candidates call ⊆ candidates := by
  unfold afterCall
  split
  · exact List.Subset.refl _
  · split
    · exact List.filter_subset_self _
    · exact List.Subset.refl _

theorem foldl_afterCall_subset (pool : ClassPool) (list : List Call) (candidates : List String) :
    list.foldl (afterCall pool) candidates ⊆ candidates := by
  induction list generalizing candidates with
  | nil => exact List.Subset.refl _
  | cons call rest ih => exact List.Subset.trans (ih _) (afterCall_subset pool candidates call)

/-- A call without a constant gives up the candidate to which it leads when its turn comes. -/
theorem exists_stage {list : List Call} {candidates : List String} {call : Call} (hcall : call ∈ list)
    (hconstant : call.afterConstant = false) :
    ∃ stage, stage ⊆ candidates ∧ list.foldl (afterCall pool) candidates ⊆ stage ∧
      ∀ top, resolve pool stage call.ref = some top → top ∉ list.foldl (afterCall pool) candidates := by
  induction list generalizing candidates with
  | nil => cases hcall
  | cons first rest ih =>
      rcases List.mem_cons.1 hcall with rfl | hcall
      · refine ⟨candidates, List.Subset.refl _, foldl_afterCall_subset pool (call :: rest) candidates, ?_⟩
        intro top htop hmem
        have hkept := foldl_afterCall_subset pool rest _ hmem
        rw [afterCall, if_neg (by simp [hconstant]), htop, List.mem_filter] at hkept
        simp at hkept
      · obtain ⟨stage, hstage, hkept, hgone⟩ := @ih (afterCall pool candidates first) hcall
        exact ⟨stage, List.Subset.trans hstage (afterCall_subset pool candidates first), hkept, hgone⟩

/-- What the whole of the changes does: the methods of some groups lose their last parameter, and the calls that lead
to these groups are changed. -/
structure Drops (pool : ClassPool) (chosen : List Group) (after : ClassPool) : Prop where
  groups : chosen.Sublist (groups pool)
  shape : ClassPool.SameShape pool after
  constants : ∀ call ∈ calls pool, call.afterConstant = false → ∃ stage, stage ⊆ tops pool ∧
    chosen.map Group.top ⊆ stage ∧
    ∀ top, resolve pool stage call.ref = some top → top ∉ chosen.map Group.top
  methods : ∀ p m, pool.methodAt? p = some m → ∃ code descriptor,
    after.methodAt? p = some { m with code, descriptor } ∧
    ((callsIn p none 0 m.code).filter fun call =>
        (resolve pool (chosen.map Group.top) call.ref).isSome).foldrM
      (fun call code => dropArgument call.index code) m.code = .ok code ∧
    if p ∈ (chosen.flatMap Group.members).map Prod.fst then
      Descriptor.dropLastParameter m.descriptor = .ok descriptor
    else descriptor = m.descriptor

/-- A call without a constant led to a candidate that was given up, while the groups that were chosen were candidates
still. -/
theorem exists_stage_eligible (candidates : List Group) {call : Call} (hcall : call ∈ calls pool)
    (hconstant : call.afterConstant = false) : ∃ stage, stage ⊆ candidates.map Group.top ∧
      (eligible pool candidates).map Group.top ⊆ stage ∧
      ∀ top, resolve pool stage call.ref = some top → top ∉ (eligible pool candidates).map Group.top := by
  have hkept : ∀ top ∈ (eligible pool candidates).map Group.top,
      top ∈ (calls pool).foldl (afterCall pool) (candidates.map Group.top) := by
    intro top htop
    obtain ⟨group, hgroup, rfl⟩ := List.mem_map.1 htop
    simpa using (List.mem_filter.1 hgroup).2
  obtain ⟨stage, hstage, hsubset, hgone⟩ := exists_stage hcall hconstant
  exact ⟨stage, hstage, fun top htop => hsubset (hkept top htop),
    fun top htop hmem => hgone top htop (hkept top hmem)⟩

theorem drop_eq_ok {methods sites : Nat} {candidates : List Group}
    (hcandidates : candidates.Sublist (groups pool))
    (h : drop pool (eligible pool candidates) = .ok (after, methods, sites)) :
    Drops pool (eligible pool candidates) after := by
  have hgroups : (eligible pool candidates).Sublist (groups pool) :=
    List.Sublist.trans List.filter_sublist hcandidates
  obtain ⟨changed, hchanged, h⟩ := bind_eq_ok.1 h
  obtain ⟨shorter, hshorter, h⟩ := bind_eq_ok.1 h
  obtain ⟨rfl, -⟩ := Prod.mk.inj (Except.ok.inj h)
  obtain ⟨hshape, hcodes⟩ := foldrM_sites hchanged
  obtain ⟨hshape', hothers, hmembers⟩ :=
    ClassPool.foldlM_changeMethod_eq_ok (nodup_members hgroups) hshorter
  refine ⟨hgroups, hshape.trans hshape', fun call hcall hconstant => ?_, fun p m hat => ?_⟩
  · obtain ⟨stage, hstage, hsubset, hgone⟩ := exists_stage_eligible candidates hcall hconstant
    refine ⟨stage, fun top htop => ?_, hsubset, hgone⟩
    obtain ⟨group, hgroup, rfl⟩ := List.mem_map.1 (hstage htop)
    exact mem_tops_of_mem_groups (hcandidates.subset hgroup)
  · obtain ⟨code, hcode, hat'⟩ := hcodes p m hat
    rw [List.filter_comm, filter_calls hat] at hcode
    split
    · next hmem =>
        obtain ⟨m', hm', hafter⟩ := hmembers p hmem _ hat'
        obtain ⟨descriptor, hdescriptor, rfl⟩ := map_eq_ok.1 hm'
        exact ⟨code, descriptor, hafter, hcode, mapError_eq_ok.1 hdescriptor⟩
    · next hmem => exact ⟨code, m.descriptor, by rw [hothers p hmem, hat'], hcode, rfl⟩

theorem run_ofExcept_bind {ε δ α β : Type} {wrap : ε → δ} {x : Except ε α} {f : α → Logged δ β} {lines : List LogLine}
    {b : β} (h : (Logged.ofExcept wrap x >>= f).run = (lines, .ok b)) :
    ∃ a, x = .ok a ∧ (f a).run = (lines, .ok b) := by
  cases x with
  | error reason => cases h
  | ok a => exact ⟨a, rfl, h⟩

/-- What became of a pool from which trailing parameters were removed, and which groups could have lost theirs as far as
their methods go. -/
theorem exists_candidates {lines : List LogLine} {count : Nat}
    (h : pool.dropTrailingInts.run = (lines, .ok (after, count))) :
    ∃ candidates, droppable pool = .ok candidates ∧ Drops pool (eligible pool candidates) after := by
  obtain ⟨candidates, hcandidates, h⟩ := run_ofExcept_bind h
  obtain ⟨⟨shorter, methods, sites⟩, hdrop, h⟩ := run_ofExcept_bind h
  obtain ⟨rfl, -⟩ := Prod.mk.inj (Except.ok.inj (Prod.mk.inj h).2)
  exact ⟨candidates, hcandidates, drop_eq_ok (filterM_sublist hcandidates) hdrop⟩

/-- What became of a pool from which trailing parameters were removed. -/
theorem dropTrailingInts_eq_ok {lines : List LogLine} {count : Nat}
    (h : pool.dropTrailingInts.run = (lines, .ok (after, count))) : ∃ chosen, Drops pool chosen after := by
  obtain ⟨candidates, -, hdrops⟩ := exists_candidates h
  exact ⟨_, hdrops⟩

end Passes

end TrailingInt

end Unscramble
