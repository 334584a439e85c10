/-
New names.  They are numbered, so two things get the same new name only if they are given the same number.  Where no
name that is kept is one of the new names, renaming keeps classes apart, and the methods and the fields of a class too.
-/
import Mathlib.Data.List.Induction
import Unscramble.Cleanup.Renaming
import Unscramble.Proofs.DescriptorNames
import Unscramble.Proofs.Hierarchy

namespace Unscramble

namespace Renaming

section Numbers

variable {α : Type} {text key key' new : String} {keys : α → List String} {items : List α}

/-- Gives each item the number of its place and enters the numbered name under all keys of the item.  An item overrides
the earlier ones. -/
def numbered (text : String) (keys : α → List String) (items : List α) : List (String × String) :=
  ((items.zipIdx 1).flatMap fun (item, k) => (keys item).map fun key => (key, text ++ k.repr)).reverse

theorem numbered_inj {j k : Nat} (h : text ++ j.repr = text ++ k.repr) : j = k := by
  have hdigits := congrArg String.toList ((String.append_right_inj text).1 h)
  rw [Nat.repr_eq_ofList_toDigits, Nat.repr_eq_ofList_toDigits, String.toList_ofList, String.toList_ofList] at hdigits
  rw [← Nat.ofDigitChars_ten_toDigits (n := j), hdigits, Nat.ofDigitChars_ten_toDigits]

theorem semicolon_not_mem_repr (k : Nat) : ';' ∉ k.repr.toList := by
  intro h
  rw [Nat.repr_eq_ofList_toDigits, String.toList_ofList] at h
  exact absurd (Nat.isDigit_of_mem_toDigits (by decide) (by decide) h) (by decide)

theorem exists_of_mem_numbered (h : (key, new) ∈ numbered text keys items) :
    ∃ index item, items[index]? = some item ∧ key ∈ keys item ∧ new = text ++ (index + 1).repr := by
  obtain ⟨⟨item, k⟩, hitem, hkey⟩ := List.mem_flatMap.1 (List.mem_reverse.1 h)
  obtain ⟨_, hfound, heq⟩ := List.mem_map.1 hkey
  obtain ⟨rfl, rfl⟩ := Prod.mk.inj heq
  obtain ⟨hle, hget⟩ := List.mk_mem_zipIdx_iff_le_and_getElem?_sub.1 hitem
  exact ⟨k - 1, item, hget, hfound, by rw [Nat.sub_add_cancel hle]⟩

/-- Keys that find the same new name are keys of one item. -/
theorem exists_of_lookup_numbered (h : (numbered text keys items).lookup key = some new)
    (h' : (numbered text keys items).lookup key' = some new) :
    ∃ item ∈ items, key ∈ keys item ∧ key' ∈ keys item := by
  obtain ⟨index, item, hitem, hkey, rfl⟩ := exists_of_mem_numbered (mem_of_lookup h)
  obtain ⟨index', item', hitem', hkey', heq⟩ := exists_of_mem_numbered (mem_of_lookup h')
  obtain rfl : index = index' := Nat.succ.inj (numbered_inj heq)
  obtain rfl := Option.some.inj (hitem.symm.trans hitem')
  exact ⟨item, List.mem_of_getElem? hitem, hkey, hkey'⟩

theorem numbered_concat (item : α) : numbered text keys (items ++ [item]) =
    ((keys item).map fun key => (key, text ++ (items.length + 1).repr)).reverse ++ numbered text keys items := by
  simp [numbered, List.zipIdx_append, Nat.add_comm]

theorem lookup_const {value : String} {list : List String} :
    (list.map fun key => (key, value)).reverse.lookup key = if key ∈ list then some value else none := by
  split
  · next hmem =>
      cases hfound : (list.map fun key => (key, value)).reverse.lookup key with
      | none => exact absurd (List.mem_reverse.2 (List.mem_map_of_mem hmem)) (not_mem_of_lookup hfound value)
      | some found =>
          obtain ⟨_, _, heq⟩ := List.mem_map.1 (List.mem_reverse.1 (mem_of_lookup hfound))
          rw [(Prod.mk.inj heq).2]
  · next hmem =>
      rw [List.lookup_eq_none_iff]
      intro entry hentry
      obtain ⟨other, hother, rfl⟩ := List.mem_map.1 (List.mem_reverse.1 hentry)
      simpa using fun heq : key = other => hmem (heq ▸ hother)

/-- Keys that the same items have find the same name. -/
theorem lookup_numbered_congr (h : ∀ item ∈ items, key ∈ keys item ↔ key' ∈ keys item) :
    (numbered text keys items).lookup key = (numbered text keys items).lookup key' := by
  -- the last item that has a key decides, so the induction takes items off the end
  induction items using List.reverseRecOn with
  | nil => rfl
  | append_singleton items item ih =>
      have hitem := h item (by simp)
      have hrest := ih fun other hother => h other (List.mem_append_left _ hother)
      rw [numbered_concat, List.lookup_append, List.lookup_append, hrest, lookup_const, lookup_const]
      simp only [hitem]

end Numbers

section Tables

variable {pool : ClassPool} {c c' : ClassDecl} {m m' : MethodDecl} {f f' : FieldDecl}

/-- The identities under which a member is entered: for its class and for all subtypes, with the same text behind the
dot. -/
def keysBelow (pool : ClassPool) (owner text : String) : List String :=
  (pool.withSubclasses owner).map fun sub => sub ++ "." ++ text

def methodKeys (pool : ClassPool) (entry : ClassDecl × MethodDecl) : List String :=
  keysBelow pool entry.1.name (entry.2.name ++ entry.2.descriptor)

def fieldKeys (pool : ClassPool) (entry : ClassDecl × FieldDecl) : List String :=
  keysBelow pool entry.1.name entry.2.name

theorem methodKey_eq (ref : MemberRef) : ref.methodKey = ref.owner ++ "." ++ (ref.name ++ ref.descriptor) := by
  simp [MemberRef.methodKey, String.append_assoc]

theorem fieldKey_eq (ref : MemberRef) : ref.fieldKey = ref.owner ++ "." ++ ref.name := by
  simp [MemberRef.fieldKey]

theorem methods_ofPool (pool : ClassPool) :
    (ofPool pool).methods = numbered "method" (methodKeys pool) (renamedMethods pool) := by
  simp only [ofPool, numbered, methodKeys, keysBelow, List.map_map, methodKey_eq]
  rfl

theorem fields_ofPool (pool : ClassPool) :
    (ofPool pool).fields = numbered "field" (fieldKeys pool) (renamedFields pool) := by
  simp only [ofPool, numbered, fieldKeys, keysBelow, List.map_map, fieldKey_eq]
  rfl

/-- The new name of a class is numbered by the place of its old name. -/
theorem exists_of_mem_classes {name new : String} (h : (name, new) ∈ (ofPool pool).classes) :
    ∃ index, (pool.names.filter isShort)[index]? = some name ∧ new = "class" ++ (index + 1).repr := by
  obtain ⟨⟨short, k⟩, hshort, heq⟩ := List.mem_map.1 h
  obtain ⟨rfl, rfl⟩ := Prod.mk.inj heq
  obtain ⟨hle, hget⟩ := List.mk_mem_zipIdx_iff_le_and_getElem?_sub.1 hshort
  exact ⟨k - 1, hget, by rw [Nat.sub_add_cancel hle]; rfl⟩

/-- The names of classes that stand in the name of a class: its own, or for an array class those in its type. -/
def classNames (name : String) : List String :=
  if name.startsWith "[" then Descriptor.names name else [name]

/-- The names of classes that a class uses for itself and in the types of its members. -/
def typeNames (c : ClassDecl) : List String :=
  classNames c.name ++ c.methods.flatMap (fun m => Descriptor.names m.descriptor) ++
    c.fields.flatMap fun f => Descriptor.names f.descriptor

/-- No new name is already in use. -/
structure Fresh (pool : ClassPool) : Prop where
  classes : ∀ entry ∈ (ofPool pool).classes, ∀ c ∈ pool.classes, entry.2 ∉ typeNames c
  methods : ∀ entry ∈ (ofPool pool).methods, ∀ c ∈ pool.classes, ∀ m ∈ c.methods, entry.2 ≠ m.name
  fields : ∀ entry ∈ (ofPool pool).fields, ∀ c ∈ pool.classes, ∀ f ∈ c.fields, entry.2 ≠ f.name

/-- The name of every class can stand before the dot of a written reference. -/
def PlainClasses (pool : ClassPool) : Prop :=
  ∀ name ∈ pool.names, isPlainOwner name = true

instance (pool : ClassPool) : Decidable (PlainClasses pool) :=
  inferInstanceAs (Decidable (∀ name ∈ pool.names, _))

end Tables

section Apart

variable {pool : ClassPool} {c c' : ClassDecl} {m m' : MethodDecl} {f f' : FieldDecl}

theorem dotted_inj {owner owner' text text' : String} (howner : isPlainOwner owner = true)
    (howner' : isPlainOwner owner' = true) (h : owner ++ "." ++ text = owner' ++ "." ++ text') :
    owner = owner' ∧ text = text' := by
  simp only [isPlainOwner, Bool.not_eq_true', List.contains_eq_mem, decide_eq_false_iff_not] at howner howner'
  have hchars : owner.toList ++ '.' :: text.toList = owner'.toList ++ '.' :: text'.toList := by
    simpa using congrArg String.toList h
  obtain ⟨howners, htexts⟩ := append_cons_inj howner howner' hchars
  exact ⟨String.toList_inj.1 howners, String.toList_inj.1 htexts⟩

theorem mem_names_of_withSubclasses {owner : String} (hc : c ∈ pool.classes)
    (h : owner ∈ pool.withSubclasses c.name) : owner ∈ pool.names := by
  rcases Relation.ReflTransGen.cases_head (ClassPool.mem_withSubclasses.1 h) with rfl | ⟨_, hextends, _⟩
  · exact List.mem_map_of_mem hc
  · exact hextends.mem_names

/-- A class has an identity of a member exactly if it is at or below the class of the member and the texts behind the
dot agree. -/
theorem mem_keysBelow (hplain : PlainClasses pool) (hc : c ∈ pool.classes) (hc' : c' ∈ pool.classes)
    {text text' : String} :
    c.name ++ "." ++ text ∈ keysBelow pool c'.name text' ↔ pool.AtOrBelow c.name c'.name ∧ text = text' := by
  constructor
  · intro h
    obtain ⟨sub, hsub, heq⟩ := List.mem_map.1 h
    obtain ⟨rfl, rfl⟩ := dotted_inj (hplain _ (mem_names_of_withSubclasses hc' hsub))
      (hplain _ (List.mem_map_of_mem hc)) heq
    exact ⟨ClassPool.mem_withSubclasses.1 hsub, rfl⟩
  · rintro ⟨hbelow, rfl⟩
    exact List.mem_map_of_mem (ClassPool.mem_withSubclasses.2 hbelow)

/-- Where no kept name is a new one, things that end up with the same name both keep theirs or both get the same new
one. -/
theorem lookup_of_getD_eq {table : List (String × String)} {key key' name name' : String}
    (hname : ∀ entry ∈ table, entry.2 ≠ name) (hname' : ∀ entry ∈ table, entry.2 ≠ name')
    (h : (table.lookup key).getD name = (table.lookup key').getD name') :
    name = name' ∨ ∃ new, table.lookup key = some new ∧ table.lookup key' = some new := by
  cases hkey : table.lookup key with
  | none =>
      cases hkey' : table.lookup key' with
      | none => exact .inl (by simpa [hkey, hkey'] using h)
      | some new' => exact absurd (by simpa [hkey, hkey'] using h.symm) (hname _ (mem_of_lookup hkey'))
  | some new =>
      cases hkey' : table.lookup key' with
      | none => exact absurd (by simpa [hkey, hkey'] using h) (hname' _ (mem_of_lookup hkey))
      | some new' => exact .inr ⟨new, rfl, by simpa [hkey, hkey', eq_comm] using h⟩

/-- Two classes get different names if neither already has a new one. -/
theorem renamed_inj {a b : String} (ha : ∀ entry ∈ (ofPool pool).classes, entry.2 ≠ a)
    (hb : ∀ entry ∈ (ofPool pool).classes, entry.2 ≠ b)
    (h : Descriptor.renamed (fun name => (ofPool pool).classes.lookup name) a =
      Descriptor.renamed (fun name => (ofPool pool).classes.lookup name) b) : a = b := by
  rcases lookup_of_getD_eq ha hb h with heq | ⟨new, hnew, hnew'⟩
  · exact heq
  · obtain ⟨index, hindex, rfl⟩ := exists_of_mem_classes (mem_of_lookup hnew)
    obtain ⟨index', hindex', heq⟩ := exists_of_mem_classes (mem_of_lookup hnew')
    obtain rfl : index = index' := Nat.succ.inj (numbered_inj heq)
    exact Option.some.inj (hindex.symm.trans hindex')

theorem semicolon_not_mem_new {name new : String} (h : (ofPool pool).classes.lookup name = some new) :
    ';' ∉ new.toList := by
  obtain ⟨index, -, rfl⟩ := exists_of_mem_classes (mem_of_lookup h)
  rw [String.toList_append, List.mem_append, not_or]
  exact ⟨by decide, semicolon_not_mem_repr _⟩

theorem Fresh.ne_of_mem (hfresh : Fresh pool) (hc : c ∈ pool.classes) {name : String} (h : name ∈ typeNames c) :
    ∀ entry ∈ (ofPool pool).classes, entry.2 ≠ name := by
  rintro entry hentry rfl
  exact hfresh.classes entry hentry c hc h

/-- Types in the pool that become the same were the same. -/
theorem descriptor_inj (hfresh : Fresh pool) (hc : c ∈ pool.classes) (hc' : c' ∈ pool.classes)
    {descriptor descriptor' : String} (hnames : Descriptor.names descriptor ⊆ typeNames c)
    (hnames' : Descriptor.names descriptor' ⊆ typeNames c')
    (h : (ofPool pool).descriptor descriptor = (ofPool pool).descriptor descriptor') :
    descriptor = descriptor' := by
  refine Descriptor.mapNames_inj (fun name new hnew => semicolon_not_mem_new hnew) ?_ h
  intro a ha b hb heq
  exact renamed_inj (hfresh.ne_of_mem hc (hnames ha)) (hfresh.ne_of_mem hc' (hnames' hb)) heq

theorem names_method_subset (h : m ∈ c.methods) : Descriptor.names m.descriptor ⊆ typeNames c := by
  intro name hname
  simp only [typeNames, List.mem_append, List.mem_flatMap]
  exact .inl (.inr ⟨m, h, hname⟩)

theorem names_field_subset (h : f ∈ c.fields) : Descriptor.names f.descriptor ⊆ typeNames c := by
  intro name hname
  simp only [typeNames, List.mem_append, List.mem_flatMap]
  exact .inr ⟨f, h, hname⟩

theorem startsWith_bracket_iff {name : String} : name.startsWith "[" = true ↔ name.toList.head? = some '[' := by
  rw [String.startsWith_string_iff]
  cases name.toList with
  | nil => simp
  | cons first rest => simp [List.cons_prefix_cons, eq_comm]

theorem className_plain {r : Renaming} {name : String} (h : name.toList.head? ≠ some '[') :
    r.className name = (r.classes.lookup name).getD name := by
  rw [className, if_neg (mt startsWith_bracket_iff.1 h)]

/-- An array class stays one, and no other class becomes one. -/
theorem startsWith_className (r : Renaming) (hr : ∀ entry ∈ r.classes, entry.2.startsWith "[" = false)
    (name : String) : (r.className name).startsWith "[" = name.startsWith "[" := by
  unfold className
  split
  · next harray =>
      rw [harray, startsWith_bracket_iff, descriptor, Descriptor.mapNames, String.toList_ofList,
        Descriptor.head?_mapChars]
      exact startsWith_bracket_iff.1 harray
  · next harray =>
      cases hnew : r.classes.lookup name with
      | none => rfl
      | some new => exact (hr _ (mem_of_lookup hnew)).trans (Bool.eq_false_iff.2 harray).symm

theorem new_not_startsWith {entry : String × String} (h : entry ∈ (ofPool pool).classes) :
    entry.2.startsWith "[" = false := by
  obtain ⟨index, -, hnew⟩ := exists_of_mem_classes h
  rw [hnew, Bool.eq_false_iff, Ne, startsWith_bracket_iff, String.toList_append,
    show "class".toList = 'c' :: ['l', 'a', 's', 's'] from rfl]
  simp

/-- Classes keep apart. -/
theorem className_inj (hfresh : Fresh pool) (hc : c ∈ pool.classes) (hc' : c' ∈ pool.classes)
    (h : (ofPool pool).className c.name = (ofPool pool).className c'.name) : c.name = c'.name := by
  have hkind := congrArg (·.startsWith "[") h
  simp only [startsWith_className _ fun _ => new_not_startsWith] at hkind
  have hnames : classNames c.name ⊆ typeNames c := fun name hname => by simp [typeNames, hname]
  have hnames' : classNames c'.name ⊆ typeNames c' := fun name hname => by simp [typeNames, hname]
  unfold className at h
  unfold classNames at hnames hnames'
  rw [← hkind] at h hnames'
  split at h
  · next harray =>
      rw [if_pos harray] at hnames hnames'
      exact descriptor_inj hfresh hc hc' hnames hnames' h
  · next harray =>
      rw [if_neg harray] at hnames hnames'
      exact renamed_inj (hfresh.ne_of_mem hc (hnames (List.mem_singleton_self _)))
        (hfresh.ne_of_mem hc' (hnames' (List.mem_singleton_self _))) h

/-- Methods of the pool that get the same name and type had the same name and type. -/
theorem method_inj (hfresh : Fresh pool) (hplain : PlainClasses pool) (hm : (c, m) ∈ pool.methods)
    (hm' : (c', m') ∈ pool.methods)
    (hname : ((ofPool pool).method c.name m).name = ((ofPool pool).method c'.name m').name)
    (htype : ((ofPool pool).method c.name m).descriptor = ((ofPool pool).method c'.name m').descriptor) :
    m.name = m'.name ∧ m.descriptor = m'.descriptor := by
  obtain ⟨hc, hmc⟩ := ClassPool.mem_methods.1 hm
  obtain ⟨hc', hmc'⟩ := ClassPool.mem_methods.1 hm'
  have hdescriptor := descriptor_inj hfresh hc hc' (names_method_subset hmc) (names_method_subset hmc') htype
  refine ⟨?_, hdescriptor⟩
  rcases lookup_of_getD_eq (fun entry hentry => hfresh.methods entry hentry c hc m hmc)
    (fun entry hentry => hfresh.methods entry hentry c' hc' m' hmc') hname with heq | ⟨new, hnew, hnew'⟩
  · exact heq
  · rw [methods_ofPool, methodKey_eq] at hnew hnew'
    obtain ⟨⟨top, decl⟩, htop, hkey, hkey'⟩ := exists_of_lookup_numbered hnew hnew'
    have hclass := (ClassPool.mem_methods.1 (List.mem_filter.1 htop).1).1
    -- both have the text of one declaration behind the dot, and the types are equal
    have htexts := ((mem_keysBelow hplain hc hclass).1 hkey).2.trans ((mem_keysBelow hplain hc' hclass).1 hkey').2.symm
    simp only [hdescriptor] at htexts
    exact (String.append_left_inj _).1 htexts

/-- Fields of the pool that get the same name and type had the same name and type. -/
theorem field_inj (hfresh : Fresh pool) (hplain : PlainClasses pool) (hc : c ∈ pool.classes)
    (hf : f ∈ c.fields) (hc' : c' ∈ pool.classes) (hf' : f' ∈ c'.fields)
    (hname : ((ofPool pool).field c.name f).name = ((ofPool pool).field c'.name f').name)
    (htype : ((ofPool pool).field c.name f).descriptor = ((ofPool pool).field c'.name f').descriptor) :
    f.name = f'.name ∧ f.descriptor = f'.descriptor := by
  refine ⟨?_, descriptor_inj hfresh hc hc' (names_field_subset hf) (names_field_subset hf') htype⟩
  rcases lookup_of_getD_eq (fun entry hentry => hfresh.fields entry hentry c hc f hf)
    (fun entry hentry => hfresh.fields entry hentry c' hc' f' hf') hname with heq | ⟨new, hnew, hnew'⟩
  · exact heq
  · rw [fields_ofPool, fieldKey_eq] at hnew hnew'
    obtain ⟨⟨top, decl⟩, htop, hkey, hkey'⟩ := exists_of_lookup_numbered hnew hnew'
    have hclass : top ∈ pool.classes := by
      obtain ⟨k, hk, hmem⟩ := List.mem_flatMap.1 htop
      obtain ⟨_, _, heq⟩ := List.mem_map.1 hmem
      exact (Prod.mk.inj heq).1 ▸ hk
    exact ((mem_keysBelow hplain hc hclass).1 hkey).2.trans ((mem_keysBelow hplain hc' hclass).1 hkey').2.symm

end Apart

end Renaming

section Pools

variable {c : ClassDecl} {classes : List ClassDecl}

theorem perm_insertClass (h : c.name ∉ classes.map ClassDecl.name) : (insertClass c classes).Perm (c :: classes) := by
  induction classes with
  | nil => exact .refl _
  | cons d rest ih =>
      rw [List.map_cons, List.mem_cons, not_or] at h
      rw [insertClass, if_neg h.1]
      split
      · exact .refl _
      · exact ((ih h.2).cons d).trans (.swap c d rest)

/-- A pool that is put together from classes with different names consists of these. -/
theorem ClassPool.perm_ofList (h : (classes.map ClassDecl.name).Nodup) : (ofList classes).classes.Perm classes := by
  have hfold : ∀ pool : ClassPool, (pool.names ++ classes.map ClassDecl.name).Nodup →
      (classes.foldl (fun pool c => pool.insert c) pool).classes.Perm (pool.classes ++ classes) := by
    clear h
    induction classes with
    | nil => simp
    | cons c rest ih =>
        intro pool hnodup
        have hnew : c.name ∉ pool.classes.map ClassDecl.name := fun hmem =>
          (List.nodup_append.1 hnodup).2.2 c.name hmem c.name List.mem_cons_self rfl
        have hinsert : (pool.insert c).classes.Perm (c :: pool.classes) := perm_insertClass hnew
        have hmiddle : (c :: pool.classes ++ rest).Perm (pool.classes ++ c :: rest) := List.perm_middle.symm
        have hnames : ((pool.insert c).names ++ rest.map ClassDecl.name).Perm
            (pool.names ++ (c :: rest).map ClassDecl.name) := by
          simpa [names] using ((hinsert.append_right rest).trans hmiddle).map ClassDecl.name
        exact (ih _ (hnames.nodup_iff.2 hnodup)).trans ((hinsert.append_right rest).trans hmiddle)
  exact hfold empty (by simpa [names, empty] using h)

/-- The names and types of the methods of a class. -/
def ClassDecl.methodPairs (c : ClassDecl) : List (String × String) :=
  c.methods.map fun m => (m.name, m.descriptor)

/-- The names and types of the fields of a class. -/
def ClassDecl.fieldPairs (c : ClassDecl) : List (String × String) :=
  c.fields.map fun f => (f.name, f.descriptor)

end Pools

namespace Renaming

variable {pool : ClassPool} {c : ClassDecl}

theorem perm_pool (hfresh : Fresh pool) :
    ((ofPool pool).pool pool).classes.Perm (pool.classes.map (ofPool pool).classDecl) := by
  refine ClassPool.perm_ofList ?_
  rw [List.map_map, List.Nodup, List.pairwise_map]
  refine (List.pairwise_map.1 pool.nodup_names).imp_of_mem ?_
  intro a b ha hb hne heq
  exact hne (className_inj hfresh ha hb heq)

theorem get?_pool (hfresh : Fresh pool) (hc : c ∈ pool.classes) :
    ((ofPool pool).pool pool).get? ((ofPool pool).className c.name) = some ((ofPool pool).classDecl c) :=
  ClassPool.get?_eq_some.2 ⟨(perm_pool hfresh).mem_iff.2 (List.mem_map_of_mem hc), rfl⟩

theorem nodup_methodPairs (hfresh : Fresh pool) (hplain : PlainClasses pool) (hc : c ∈ pool.classes)
    (h : c.methodPairs.Nodup) : ((ofPool pool).classDecl c).methodPairs.Nodup := by
  rw [ClassDecl.methodPairs, classDecl, List.map_map, List.Nodup, List.pairwise_map]
  refine (List.pairwise_map.1 h).imp_of_mem fun {m m'} hm hm' hne heq => hne ?_
  obtain ⟨hname, htype⟩ := Prod.mk.inj heq
  obtain ⟨hname, htype⟩ := method_inj hfresh hplain (ClassPool.mem_methods.2 ⟨hc, hm⟩)
    (ClassPool.mem_methods.2 ⟨hc, hm'⟩) hname htype
  rw [hname, htype]

theorem nodup_fieldPairs (hfresh : Fresh pool) (hplain : PlainClasses pool) (hc : c ∈ pool.classes)
    (h : c.fieldPairs.Nodup) : ((ofPool pool).classDecl c).fieldPairs.Nodup := by
  rw [ClassDecl.fieldPairs, classDecl, List.map_map, List.Nodup, List.pairwise_map]
  refine (List.pairwise_map.1 h).imp_of_mem fun {f f'} hf hf' hne heq => hne ?_
  obtain ⟨hname, htype⟩ := Prod.mk.inj heq
  obtain ⟨hname, htype⟩ := field_inj hfresh hplain hc hf hc hf' hname htype
  rw [hname, htype]

theorem run_rename (ε : Type) (pool : ClassPool) :
    ∃ lines count, (pool.rename : Logged ε (ClassPool × Nat)).run =
      (lines, .ok ((ofPool pool).pool pool, count)) :=
  ⟨_, _, rfl⟩

/-- Where no new name is already in use, renaming merges nothing: there are as many classes as before, classes have
different names, and in each of them different methods and different fields stay different. -/
theorem rename_merges_nothing {ε : Type} (hfresh : Fresh pool) (hplain : PlainClasses pool) :
    ∃ lines after count,
      (pool.rename : Logged ε (ClassPool × Nat)).run = (lines, .ok (after, count)) ∧
      after.size = pool.size ∧
      (∀ a ∈ pool.names, ∀ b ∈ pool.names, (ofPool pool).className a = (ofPool pool).className b → a = b) ∧
      ∀ c ∈ pool.classes, after.get? ((ofPool pool).className c.name) = some ((ofPool pool).classDecl c) ∧
        (c.methodPairs.Nodup → ((ofPool pool).classDecl c).methodPairs.Nodup) ∧
        (c.fieldPairs.Nodup → ((ofPool pool).classDecl c).fieldPairs.Nodup) := by
  obtain ⟨lines, count, hrun⟩ := run_rename ε pool
  refine ⟨lines, _, count, hrun, ?_, ?_, fun c hc => ⟨get?_pool hfresh hc, nodup_methodPairs hfresh hplain hc,
    nodup_fieldPairs hfresh hplain hc⟩⟩
  · simpa [ClassPool.size] using (perm_pool hfresh).length_eq
  · intro a ha b hb heq
    obtain ⟨c, hc, rfl⟩ := List.mem_map.1 ha
    obtain ⟨c', hc', rfl⟩ := List.mem_map.1 hb
    exact className_inj hfresh hc hc' heq

/-- A method with a short name gets a new one unless it is declared higher up. -/
theorem renamesMethod_eq {c : ClassDecl} {m : MethodDecl}
    (hshort : (isShortMethod m.name && !decide ('<' ∈ m.name.toList) && !m.isNative) = true) :
    renamesMethod pool c m = !anySuper pool c.name fun ancestor => (ancestor.method? m.name m.descriptor).isSome := by
  rw [renamesMethod, String.contains_char_eq, hshort, Bool.true_and]

section Examples

/-- A class with a short name and two fields of one name. -/
def shortA : ClassDecl where
  name := "a"
  fields := [⟨"x", "I", 0, none⟩, ⟨"x", "[La;", 0, none⟩]
  methods := [{ name := "q", descriptor := "(La;)V" }, { name := "run", descriptor := "()V" }]

/-- A subtype that declares one of the methods again. -/
def shortB : ClassDecl where
  name := "b"
  superName := some "a"
  methods := [{ name := "q", descriptor := "(La;)V" }]

def shortNames : ClassPool :=
  ClassPool.ofList [shortA, shortB]

theorem classes_shortNames : shortNames.classes = [shortA, shortB] := by
  decide

/-- The first class has no super type in the pool. -/
theorem anySuper_shortA (declares : ClassDecl → Bool) : anySuper shortNames shortA.name declares = false := by
  cbv

theorem renamedMethods_shortNames :
    renamedMethods shortNames = [(shortA, { name := "q", descriptor := "(La;)V" })] := by
  have hmethods : shortNames.methods = [(shortA, { name := "q", descriptor := "(La;)V" }),
      (shortA, { name := "run", descriptor := "()V" }), (shortB, { name := "q", descriptor := "(La;)V" })] := by
    decide
  have hrun : renamesMethod shortNames shortA { name := "run", descriptor := "()V" } = false := by
    rw [renamesMethod, show isShortMethod "run" = false by decide +kernel]
    rfl
  have hhigh : renamesMethod shortNames shortA { name := "q", descriptor := "(La;)V" } = true := by
    rw [renamesMethod_eq (by decide), anySuper_shortA]
    rfl
  have hlow : renamesMethod shortNames shortB { name := "q", descriptor := "(La;)V" } = false := by
    rw [renamesMethod_eq (by decide)]
    cbv
  simp [renamedMethods, hmethods, hrun, hhigh, hlow]

theorem renamedFields_shortNames : renamedFields shortNames = shortA.fields.map (shortA, ·) := by
  have hfields : ∀ f ∈ shortA.fields, renamesField shortNames shortA f = true := by
    simp only [renamesField, anySuper_shortA]
    decide
  rw [renamedFields, classes_shortNames, List.flatMap_cons, List.filter_eq_self.2 hfields]
  rfl

theorem ofPool_shortNames : ofPool shortNames = ⟨[("a", "class1"), ("b", "class2")],
    [("b.q(La;)V", "method1"), ("a.q(La;)V", "method1")],
    [("b.x", "field2"), ("a.x", "field2"), ("b.x", "field1"), ("a.x", "field1")]⟩ := by
  have hbelow : shortNames.withSubclasses shortA.name = ["a", "b"] := by cbv
  rw [ofPool, renamedMethods_shortNames, renamedFields_shortNames]
  simp only [shortA, List.map_cons, List.map_nil, List.zipIdx_cons, List.zipIdx_nil, List.flatMap_cons, List.flatMap_nil]
  rw [show "a" = shortA.name from rfl, hbelow]
  decide

theorem shortNames_merges_nothing :
    Fresh shortNames ∧ PlainClasses shortNames ∧
      (∀ c ∈ shortNames.classes, c.methodPairs.Nodup ∧ c.fieldPairs.Nodup) ∧ ∃ lines after count,
        (shortNames.rename : Logged Empty (ClassPool × Nat)).run = (lines, .ok (after, count)) ∧
        after.size = 2 ∧ ∃ c', after.get? "class1" = some c' ∧ c'.methodPairs.Nodup ∧ c'.fieldPairs.Nodup := by
  have htypes : typeNames shortA = ["a", "a", "a"] ∧ typeNames shortB = ["b", "a"] := by decide +kernel
  have hfresh : Fresh shortNames := by
    constructor
    · simp [ofPool_shortNames, classes_shortNames, htypes]
    · rw [ofPool_shortNames, classes_shortNames]
      decide
    · rw [ofPool_shortNames, classes_shortNames]
      decide
  have hplain : PlainClasses shortNames := of_decide_eq_true (by decide)
  have hdistinct : ∀ c ∈ shortNames.classes, c.methodPairs.Nodup ∧ c.fieldPairs.Nodup := by
    rw [classes_shortNames]
    decide
  have ha : shortA ∈ shortNames.classes := by
    rw [classes_shortNames]
    exact List.mem_cons_self
  have hnew : (ofPool shortNames).className "a" = "class1" := by
    rw [className_plain (by decide), ofPool_shortNames]
    rfl
  obtain ⟨lines, after, count, hrun, hsize, -, hall⟩ := rename_merges_nothing (ε := Empty) hfresh hplain
  obtain ⟨hafter, hmethods, hfields⟩ := hall shortA ha
  rw [show shortA.name = "a" from rfl, hnew] at hafter
  exact ⟨hfresh, hplain, hdistinct, lines, after, count, hrun, hsize.trans (congrArg List.length classes_shortNames), _, hafter,
    hmethods (hdistinct _ ha).1, hfields (hdistinct _ ha).2⟩

/-- The new name of the first class is the name of the second one. -/
def takenName : ClassPool :=
  ClassPool.ofList [{ name := "a" }, { name := "class1" }]

theorem takenName_merges :
    takenName.size = 2 ∧ (ofPool takenName).className "a" = (ofPool takenName).className "class1" ∧
      ∃ lines after count,
        (takenName.rename : Logged Empty (ClassPool × Nat)).run = (lines, .ok (after, count)) ∧ after.size = 1 := by
  have hbefore : takenName.classes = [{ name := "a" }, { name := "class1" }] := by decide
  have htable : ofPool takenName = ⟨[("a", "class1")], [], []⟩ := by decide
  have ha : (ofPool takenName).className "a" = "class1" := by
    rw [className_plain (by decide), htable]
    rfl
  have htaken : (ofPool takenName).className "class1" = "class1" := by
    rw [className_plain (by decide), htable]
    rfl
  have hobject : (ofPool takenName).className "java/lang/Object" = "java/lang/Object" := by
    rw [className_plain (by decide), htable]
    rfl
  have hafter : (ofPool takenName).pool takenName = ClassPool.ofList [{ name := "class1" }, { name := "class1" }] := by
    simp [pool, hbefore, classDecl, ha, htaken, hobject]
  obtain ⟨lines, count, hrun⟩ := run_rename Empty takenName
  exact ⟨by decide, ha.trans htaken.symm, lines, _, count, hrun, hafter ▸ by decide⟩

end Examples

end Renaming

end Unscramble
