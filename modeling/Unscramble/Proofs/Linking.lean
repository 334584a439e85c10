/-
Calls and the methods to which they are linked.  Removing trailing parameters keeps every call linked to the same method
if methods of one name that a class sees together have the same type afterwards exactly if they had the same type
before.  The pass itself looks for a method that already has the shorter type in the class of the declaration only, so a
class further down may capture a call.
-/
import Mathlib.Data.List.Permutation
import Unscramble.Proofs.TrailingInts

namespace Unscramble

namespace ClassPool

variable {pool after : ClassPool} {name descriptor owner : String} {place : MethodPlace}

/-- The first method of a class with this name and type. -/
def declared? (pool : ClassPool) (name descriptor owner : String) : Option MethodPlace :=
  (pool.get? owner).bind fun c => (c.methods.findIdx? (·.is name descriptor)).map (MethodPlace.mk owner)

/-- Looks a method up in a class and then in its super types, depth first, through the super class before the interfaces
and not higher than `height` levels. -/
def lookupWithin (pool : ClassPool) (name descriptor : String) : (height : Nat) → (owner : String) →
    Option MethodPlace
  | 0, _ => none
  | height + 1, owner =>
      (pool.declared? name descriptor owner).or
        ((pool.directSupers owner).findSome? (lookupWithin pool name descriptor height))

/-- The method to which a call is linked. -/
def lookup? (pool : ClassPool) (ref : MemberRef) : Option MethodPlace :=
  pool.lookupWithin ref.name ref.descriptor (pool.size + 1) ref.owner

theorem methodAt?_of_declared? (h : pool.declared? name descriptor owner = some place) :
    place.owner = owner ∧ ∃ m, pool.methodAt? place = some m ∧ m.name = name ∧ m.descriptor = descriptor := by
  obtain ⟨c, hc, h⟩ := Option.bind_eq_some_iff.1 h
  obtain ⟨index, hindex, rfl⟩ := Option.map_eq_some_iff.1 h
  obtain ⟨hlt, his, -⟩ := List.findIdx?_eq_some_iff_getElem.1 hindex
  refine ⟨rfl, c.methods[index], ?_, ?_⟩
  · rw [methodAt?, hc]
    exact List.getElem?_eq_getElem hlt
  · simpa [MethodDecl.is] using his

theorem of_lookupWithin {height : Nat} (h : pool.lookupWithin name descriptor height owner = some place) :
    pool.AtOrBelow owner place.owner ∧ pool.declared? name descriptor place.owner = some place := by
  induction height generalizing owner with
  | zero => cases h
  | succ height ih =>
      rw [lookupWithin, Option.or_eq_some_iff] at h
      rcases h with hown | ⟨-, hsuper⟩
      · obtain ⟨rfl, -⟩ := methodAt?_of_declared? hown
        exact ⟨.refl, hown⟩
      · obtain ⟨sup, hsup, hfound⟩ := List.exists_of_findSome?_eq_some hsuper
        obtain ⟨hbelow, hdeclared⟩ := ih hfound
        exact ⟨hbelow.head hsup, hdeclared⟩

theorem findIdx?_congr {α : Type} {p q : α → Bool} {l l' : List α} (hlength : l.length = l'.length)
    (h : ∀ (i : Nat) (a b : α), l[i]? = some a → l'[i]? = some b → p a = q b) : l.findIdx? p = l'.findIdx? q := by
  induction l generalizing l' with
  | nil =>
      cases l' with
      | nil => rfl
      | cons => simp at hlength
  | cons a rest ih =>
      cases l' with
      | nil => simp at hlength
      | cons b rest' =>
          rw [List.findIdx?_cons, List.findIdx?_cons, h 0 a b rfl rfl,
            ih (by simpa using hlength) fun i a b ha hb => h (i + 1) a b ha hb]

/-- A class finds the same method after a change if each of its methods has what is looked up afterwards exactly if it
had what was looked up before. -/
theorem declared?_congr {descriptor' : String} (hshape : SameShape pool after)
    (h : ∀ index m m', pool.methodAt? ⟨owner, index⟩ = some m → after.methodAt? ⟨owner, index⟩ = some m' →
      m.is name descriptor = m'.is name descriptor') :
    pool.declared? name descriptor owner = after.declared? name descriptor' owner := by
  rw [declared?, declared?]
  rcases hshape.get?_cases owner with ⟨hget, hget'⟩ | ⟨c, c', hget, hget', -, hlength⟩
  · rw [hget, hget']
    rfl
  · rw [hget, hget', Option.bind_some, Option.bind_some]
    congr 1
    refine findIdx?_congr hlength.symm fun index m m' hm hm' => ?_
    exact h index m m' (by rw [methodAt?, hget]; exact hm) (by rw [methodAt?, hget']; exact hm')

theorem findSome?_congr {α β : Type} {f g : α → Option β} {l : List α} (h : ∀ a ∈ l, f a = g a) :
    l.findSome? f = l.findSome? g := by
  induction l with
  | nil => rfl
  | cons a rest ih =>
      rw [List.findSome?_cons, List.findSome?_cons, h a List.mem_cons_self,
        ih fun b hb => h b (List.mem_cons_of_mem a hb)]

theorem lookupWithin_congr {descriptor' : String} (hshape : SameShape pool after) {height : Nat}
    (h : ∀ found, pool.AtOrBelow owner found →
      pool.declared? name descriptor found = after.declared? name descriptor' found) :
    pool.lookupWithin name descriptor height owner = after.lookupWithin name descriptor' height owner := by
  induction height generalizing owner with
  | zero => rfl
  | succ height ih =>
      rw [lookupWithin, lookupWithin, h owner .refl, hshape.directSupers]
      congr 1
      exact findSome?_congr fun sup hsup => ih fun found hfound => h found (hfound.head hsup)

end ClassPool

namespace TrailingInt

variable {pool after : ClassPool} {chosen : List Group}

/-- The names in a pool are as class files have them, so a written reference tells its parts. -/
def WellNamed (pool : ClassPool) : Prop :=
  ∀ c ∈ pool.classes, (∀ owner ∈ c.name :: c.supers, isPlainOwner owner = true) ∧
    ∀ m ∈ c.methods, isPlainMethod m.name m.descriptor = true ∧
      ∀ ref ∈ callRefs m.code, isPlainOwner ref.owner = true ∧ isPlainMethod ref.name ref.descriptor = true

instance (pool : ClassPool) : Decidable (WellNamed pool) :=
  inferInstanceAs (Decidable (∀ c ∈ pool.classes, _ ∧ _))

/-- Methods of one name that a class sees together have the same type afterwards exactly if they had the same type
before. -/
def Coherent (pool after : ClassPool) : Prop :=
  ∀ owner p q m n m' n', pool.methodAt? p = some m → pool.methodAt? q = some n →
    after.methodAt? p = some m' → after.methodAt? q = some n' → m.name = n.name →
    Sees pool m.name owner p.owner → Sees pool m.name owner q.owner →
    (m.descriptor = n.descriptor ↔ m'.descriptor = n'.descriptor)

/-- A call stays linked to its method.  A constructor is looked up in its own class only. -/
def StaysLinked (pool after : ClassPool) (ref ref' : MemberRef) : Prop :=
  ∀ place, pool.lookup? ref = some place → (ref.name = "<init>" → place.owner = ref.owner) →
    after.lookup? ref' = some place

section Names

variable {p : MethodPlace} {m : MethodDecl}

theorem WellNamed.of_methodAt? (h : WellNamed pool) (hat : pool.methodAt? p = some m) :
    isPlainOwner p.owner = true ∧ isPlainMethod m.name m.descriptor = true ∧
      ∀ ref ∈ callRefs m.code, isPlainOwner ref.owner = true ∧ isPlainMethod ref.name ref.descriptor = true := by
  obtain ⟨c, hc, hm⟩ := Option.bind_eq_some_iff.1 hat
  obtain ⟨hmem, hname⟩ := ClassPool.get?_eq_some.1 hc
  obtain ⟨howners, hmethods⟩ := h c hmem
  exact ⟨hname ▸ howners c.name List.mem_cons_self, hmethods m (List.mem_of_getElem? hm)⟩

theorem WellNamed.of_atOrBelow (h : WellNamed pool) {owner found : String}
    (howner : isPlainOwner owner = true) (hbelow : pool.AtOrBelow owner found) : isPlainOwner found = true := by
  rcases Relation.ReflTransGen.cases_tail hbelow with rfl | ⟨sub, -, hextends⟩
  · exact howner
  · obtain ⟨c, hc, hsup⟩ := ClassPool.extends_iff.1 hextends
    exact (h c (ClassPool.get?_eq_some.1 hc).1).1 found (List.mem_cons_of_mem _ hsup)

/-- A reference that leads to a declaration highest up sees the method of this declaration. -/
theorem exists_of_resolve (hnames : WellNamed pool) {candidates : List String} {ref : MemberRef} {top : String}
    (hcandidates : candidates ⊆ tops pool) (howner : isPlainOwner ref.owner = true)
    (hmethod : isPlainMethod ref.name ref.descriptor = true) (h : resolve pool candidates ref = some top) :
    top ∈ candidates ∧ ∃ p m, pool.methodAt? p = some m ∧ m.name = ref.name ∧
      m.descriptor = ref.descriptor ∧ Sees pool ref.name ref.owner p.owner ∧ topOf? pool p m = some top := by
  obtain ⟨hmem, found, hsees, hkey⟩ := of_search h
  obtain ⟨p, m, hat, htop⟩ := mem_tops (hcandidates hmem)
  obtain ⟨hp, hm, -⟩ := hnames.of_methodAt? hat
  have hfound := hnames.of_atOrBelow howner hsees.atOrBelow
  have hsame : MemberRef.mk found ref.name ref.descriptor = ⟨p.owner, m.name, m.descriptor⟩ :=
    methodKey_inj hfound hp hmethod hm (hkey.symm.trans htop)
  obtain ⟨rfl, hname, hdescriptor⟩ := MemberRef.mk.inj hsame
  refine ⟨hmem, p, m, hat, hname.symm, hdescriptor.symm, hsees, ?_⟩
  have htops := hcandidates hmem
  rw [htop] at htops ⊢
  exact resolve_self htops

end Names

namespace Drops

variable {p q : MethodPlace} {m n : MethodDecl}

theorem tops_subset (h : Drops pool chosen after) : chosen.map Group.top ⊆ tops pool := by
  intro top htop
  obtain ⟨group, hgroup, rfl⟩ := List.mem_map.1 htop
  exact mem_tops_of_mem_groups (h.groups.subset hgroup)

/-- The members of the chosen groups. -/
abbrev places (chosen : List Group) : List MethodPlace :=
  (chosen.flatMap Group.members).map Prod.fst

/-- What a method is afterwards. -/
theorem exists_after (h : Drops pool chosen after) (hat : pool.methodAt? p = some m) :
    ∃ m', after.methodAt? p = some m' ∧ m'.name = m.name ∧
      (p ∈ places chosen → Descriptor.dropLastParameter m.descriptor = .ok m'.descriptor) ∧
      (p ∉ places chosen → m'.descriptor = m.descriptor) := by
  obtain ⟨code, descriptor, hafter, -, hdescriptor⟩ := h.methods p m hat
  refine ⟨_, hafter, rfl, fun hmem => ?_, fun hmem => ?_⟩
  · rwa [if_pos hmem] at hdescriptor
  · rwa [if_neg hmem] at hdescriptor

/-- Methods with one name and type that a class sees together lose their last parameter together. -/
theorem mem_places_of_mem (h : Drops pool chosen after) (hcoherent : Coherent pool after) {owner : String}
    (hp : pool.methodAt? p = some m) (hq : pool.methodAt? q = some n) (hname : m.name = n.name)
    (hdescriptor : m.descriptor = n.descriptor) (hseesp : Sees pool m.name owner p.owner)
    (hseesq : Sees pool m.name owner q.owner) (hmem : p ∈ places chosen) : q ∈ places chosen := by
  by_contra hnot
  obtain ⟨m', hp', -, hshorter, -⟩ := h.exists_after hp
  obtain ⟨n', hq', -, -, hsame⟩ := h.exists_after hq
  have heq := (hcoherent owner p q m n m' n' hp hq hp' hq' hname hseesp hseesq).1 hdescriptor
  refine Descriptor.dropLastParameter_ne (hshorter hmem) ?_
  rw [heq, hsame hnot, hdescriptor]

/-- A call leads to a chosen group exactly if the methods with its name and type that it sees are members. -/
theorem isSome_resolve_iff (h : Drops pool chosen after) (hacyclic : pool.Acyclic) (hnames : WellNamed pool)
    (hcoherent : Coherent pool after) {ref : MemberRef} (howner : isPlainOwner ref.owner = true)
    (hmethod : isPlainMethod ref.name ref.descriptor = true) (hp : pool.methodAt? p = some m)
    (hname : m.name = ref.name) (hdescriptor : m.descriptor = ref.descriptor)
    (hsees : Sees pool ref.name ref.owner p.owner) :
    (resolve pool (chosen.map Group.top) ref).isSome = true ↔ p ∈ places chosen := by
  constructor
  · intro hleads
    obtain ⟨top, htop⟩ := Option.isSome_iff_exists.1 hleads
    obtain ⟨hmem, q, n, hq, hname', hdescriptor', hseesq, htopq⟩ :=
      exists_of_resolve hnames h.tops_subset howner hmethod htop
    refine h.mem_places_of_mem hcoherent hq hp (hname'.trans hname.symm) (hdescriptor'.trans hdescriptor.symm)
      (hname' ▸ hseesq) (hname' ▸ hsees) ?_
    exact (mem_flatMap_members h.groups hq).2 ⟨top, hmem, htopq⟩
  · intro hmem
    obtain ⟨top, htop, hresolve⟩ := (mem_flatMap_members h.groups hp).1 hmem
    obtain ⟨-, found, hfound, hkey⟩ := of_search hresolve
    dsimp only at hfound hkey
    rw [hname] at hfound
    refine isSome_resolve hacyclic (hsees.trans hfound) ?_
    rwa [← hname, ← hdescriptor, ← hkey]

/-- Every call that leads to a chosen group comes after a constant. -/
theorem afterConstant (h : Drops pool chosen after) (hacyclic : pool.Acyclic) (hnames : WellNamed pool)
    (hcoherent : Coherent pool after) {call : Call} (hcall : call ∈ calls pool)
    (howner : isPlainOwner call.ref.owner = true)
    (hmethod : isPlainMethod call.ref.name call.ref.descriptor = true)
    (hleads : (resolve pool (chosen.map Group.top) call.ref).isSome = true) : call.afterConstant = true := by
  by_contra hnot
  obtain ⟨stage, hstage, hsubset, hgone⟩ := h.constants call hcall (by simpa using hnot)
  obtain ⟨top, htop⟩ := Option.isSome_iff_exists.1 hleads
  obtain ⟨hmem, found, hsees, hkey⟩ := of_search htop
  -- the candidate to which the call led when its turn came has the fate of the one to which it leads in the end
  have hearlier := isSome_resolve hacyclic hsees (hkey ▸ hsubset hmem)
  obtain ⟨earlier, hearlier⟩ := Option.isSome_iff_exists.1 hearlier
  obtain ⟨-, p, m, hp, hname, hdescriptor, hseesp, htopp⟩ :=
    exists_of_resolve hnames hstage howner hmethod hearlier
  have hmember := (h.isSome_resolve_iff hacyclic hnames hcoherent howner hmethod hp hname hdescriptor hseesp).1 hleads
  obtain ⟨other, hother, htopother⟩ := (mem_flatMap_members h.groups hp).1 hmember
  obtain rfl := Option.some.inj (htopp.symm.trans htopother)
  exact hgone earlier hearlier hother

/-- The type of a call and that of the methods to which it may be linked stay the same. -/
theorem descriptor_after (h : Drops pool chosen after) (hacyclic : pool.Acyclic) (hnames : WellNamed pool)
    (hcoherent : Coherent pool after) {ref ref' : MemberRef} (howner : isPlainOwner ref.owner = true)
    (hmethod : isPlainMethod ref.name ref.descriptor = true)
    (href : Rewritten (fun ref => (resolve pool (chosen.map Group.top) ref).isSome) ref ref')
    {m' : MethodDecl} (hp : pool.methodAt? p = some m) (hp' : after.methodAt? p = some m')
    (hname : m.name = ref.name) (hdescriptor : m.descriptor = ref.descriptor)
    (hsees : Sees pool ref.name ref.owner p.owner) : m'.descriptor = ref'.descriptor := by
  have hiff := h.isSome_resolve_iff hacyclic hnames hcoherent howner hmethod hp hname hdescriptor hsees
  obtain ⟨m'', hp'', -, hshorter, hsame⟩ := h.exists_after hp
  obtain rfl := Option.some.inj (hp'.symm.trans hp'')
  unfold Rewritten at href
  split at href
  · next hleads =>
      obtain ⟨descriptor, hdropped, rfl⟩ := href
      have := hshorter (hiff.1 hleads)
      rw [hdescriptor, hdropped] at this
      exact (Except.ok.inj this).symm
  · next hleads => rw [hsame (mt hiff.2 hleads), hdescriptor, href]

/-- A call that was changed with the methods that it sees stays linked to its method. -/
theorem staysLinked (h : Drops pool chosen after) (hacyclic : pool.Acyclic) (hnames : WellNamed pool)
    (hcoherent : Coherent pool after) {ref ref' : MemberRef} (howner : isPlainOwner ref.owner = true)
    (hmethod : isPlainMethod ref.name ref.descriptor = true)
    (href : Rewritten (fun ref => (resolve pool (chosen.map Group.top) ref).isSome) ref ref') :
    StaysLinked pool after ref ref' := by
  intro place hlookup hconstructor
  obtain ⟨hbelow, hdeclared⟩ := ClassPool.of_lookupWithin hlookup
  obtain ⟨-, n, hn, hnname, hndescriptor⟩ := ClassPool.methodAt?_of_declared? hdeclared
  obtain ⟨n', hn', -⟩ := h.exists_after hn
  have hsame : ref'.owner = ref.owner ∧ ref'.name = ref.name := by
    unfold Rewritten at href
    split at href
    · obtain ⟨descriptor, -, rfl⟩ := href
      exact ⟨rfl, rfl⟩
    · rw [href]
      exact ⟨rfl, rfl⟩
  have hsees : Sees pool ref.name ref.owner place.owner := by
    by_cases hname : ref.name = "<init>"
    · exact .inl (hconstructor hname).symm
    · exact .inr ⟨hname, hbelow⟩
  -- no class that the call sees has gained or lost a method with its name and type
  have hall : ∀ found, Sees pool ref.name ref.owner found →
      pool.declared? ref.name ref.descriptor found = after.declared? ref.name ref'.descriptor found := by
    intro found hfound
    refine ClassPool.declared?_congr h.shape fun index m m' hm hm' => ?_
    obtain ⟨m'', hm'', hname', -⟩ := h.exists_after hm
    obtain rfl := Option.some.inj (hm'.symm.trans hm'')
    rw [Bool.eq_iff_iff]
    simp only [MethodDecl.is, Bool.and_eq_true, beq_iff_eq, hname']
    refine and_congr_right fun hname => ⟨fun hdescriptor => ?_, fun hdescriptor => ?_⟩
    · exact h.descriptor_after hacyclic hnames hcoherent howner hmethod href hm hm' hname hdescriptor hfound
    · have hlinked := h.descriptor_after hacyclic hnames hcoherent howner hmethod href hn hn' hnname
        hndescriptor hsees
      rw [← hndescriptor]
      exact (hcoherent ref.owner _ _ m n m' n' hm hn hm' hn' (hname.trans hnname.symm) (hname ▸ hfound)
        (hname ▸ hsees)).2 (hdescriptor.trans hlinked.symm)
  rw [ClassPool.lookup?, hsame.1, hsame.2, h.shape.size]
  by_cases hname : ref.name = "<init>"
  · rw [hconstructor hname] at hdeclared
    rw [ClassPool.lookupWithin, ← hall ref.owner (.inl rfl), hdeclared]
    rfl
  · rw [← ClassPool.lookupWithin_congr h.shape fun found hfound => hall found (.inr ⟨hname, hfound⟩)]
    exact hlookup

end Drops

/-- Removing trailing parameters keeps the calls of every method, each with its type or without the last parameter of
it, and keeps each linked to the same method. -/
theorem dropTrailingInts_keeps_links {lines : List LogLine} {count : Nat} (hacyclic : pool.Acyclic)
    (hnames : WellNamed pool) (hrun : pool.dropTrailingInts.run = (lines, .ok (after, count)))
    (hcoherent : Coherent pool after) {p : MethodPlace} {m : MethodDecl} (hat : pool.methodAt? p = some m) :
    ∃ m', after.methodAt? p = some m' ∧ List.Forall₂ (fun ref ref' => ref'.owner = ref.owner ∧
      ref'.name = ref.name ∧ (ref'.descriptor = ref.descriptor ∨
        Descriptor.dropLastParameter ref.descriptor = .ok ref'.descriptor) ∧
      StaysLinked pool after ref ref') (callRefs m.code) (callRefs m'.code) := by
  obtain ⟨chosen, hdrops⟩ := dropTrailingInts_eq_ok hrun
  obtain ⟨code, descriptor, hafter, hcode, -⟩ := hdrops.methods p m hat
  obtain ⟨-, -, hrefs⟩ := hnames.of_methodAt? hat
  have hconstant : ∀ call ∈ callsIn p none 0 m.code,
      (resolve pool (chosen.map Group.top) call.ref).isSome = true → call.afterConstant = true := by
    intro call hcall hleads
    have hcalls : call ∈ calls pool :=
      List.mem_flatMap.2 ⟨(p, m), ClassPool.mem_placedMethods.2 hat, hcall⟩
    obtain ⟨howner, hmethod⟩ := hrefs call.ref (mem_callsIn hcall).2
    exact hdrops.afterConstant hacyclic hnames hcoherent hcalls howner hmethod hleads
  have hrewritten : List.Forall₂ (Rewritten fun ref => (resolve pool (chosen.map Group.top) ref).isSome)
      (callRefs m.code) (callRefs code) := rewritten_of_foldrM hconstant hcode
  refine ⟨_, hafter, ((List.forall₂_and_left _ _).2 ⟨hrefs, hrewritten⟩).imp ?_⟩
  rintro ref ref' ⟨⟨howner, hmethod⟩, href⟩
  have hlinked := hdrops.staysLinked hacyclic hnames hcoherent howner hmethod href
  unfold Rewritten at href
  split at href
  · obtain ⟨descriptor, hdescriptor, rfl⟩ := href
    exact ⟨rfl, rfl, .inr hdescriptor, hlinked⟩
  · subst href
    exact ⟨rfl, rfl, .inl rfl, hlinked⟩

section Examples

/-- What the pass reports, step by step. -/
theorem run_of_drop {candidates chosen : List Group} {methods sites : Nat} (hcandidates : droppable pool = .ok candidates)
    (hchosen : eligible pool candidates = chosen) (hdrop : drop pool chosen = .ok (after, methods, sites)) :
    pool.dropTrailingInts.run =
      ([⟨.info, s!"Removed opaque predicate arguments: [methods: {methods}, " ++ s!"instructions: {sites}]."⟩],
        .ok (after, methods + sites)) := by
  rw [ClassPool.dropTrailingInts, hcandidates]
  simp only [Logged.ofExcept, pure_bind, hchosen, hdrop]
  rfl

/-- Writes a change of methods out, once the calls that change are known. -/
theorem drop_of_sites {chosen : List Group} {sites : List Call}
    (hsites : (calls pool).filter (fun call => (resolve pool (chosen.map Group.top) call.ref).isSome) = sites) :
    drop pool chosen = do
      let changed ← sites.foldrM (fun call pool => pool.changeMethod call.place fun m =>
        (dropArgument call.index m.code).map fun code => { m with code }) pool
      let shorter ← (chosen.flatMap Group.members).foldlM (fun pool (place, _) =>
        pool.changeMethod place shortenMethod) changed
      return (shorter, (chosen.flatMap Group.members).length, sites.length) := by
  rw [drop]
  simp only [hsites]

/-- A class with a method `foo` that does nothing. -/
def fooOf (name superName type : String) : ClassDecl where
  name := name
  superName := some superName
  methods := [{ name := "foo", descriptor := type, code := [.simple Opcode.vreturn] }]

/-- A class that calls `foo` through the class `B`. -/
def callerOf (type : String) (arguments : List Instr) : ClassDecl where
  name := "Main"
  methods := [{
    name := "main"
    descriptor := "()V"
    access := Access.staticBit
    code := arguments ++ [.method Opcode.invokeVirtual ⟨"B", "foo", type⟩ false, .simple Opcode.vreturn] }]

/-- The class `B` extends `A`, and the types of their methods may differ. -/
def linked (typeA typeB type : String) (arguments : List Instr) : ClassPool :=
  .ofList [fooOf "A" "java/lang/Object" typeA, fooOf "B" "A" typeB, callerOf type arguments]

theorem classes_linked (typeA typeB type : String) (arguments : List Instr) :
    (linked typeA typeB type arguments).classes =
      [fooOf "A" "java/lang/Object" typeA, fooOf "B" "A" typeB, callerOf type arguments] := by
  cbv

theorem acyclic_linked (typeA typeB type : String) (arguments : List Instr) :
    (linked typeA typeB type arguments).Acyclic := by
  refine ClassPool.acyclic_of_rank
    (fun name => if name = "B" then 2 else if name = "java/lang/Object" then 0 else 1) ?_
  rw [classes_linked]
  simp [fooOf, callerOf, ClassDecl.supers]

/-- The method of `B` overrides that of `A`. -/
def overriding (type : String) (arguments : List Instr) : ClassPool :=
  linked type type type arguments

/-- The method of `B` has the type that the method of `A` is going to have. -/
def capturing (type : String) (arguments : List Instr) : ClassPool :=
  linked type "()V" type arguments

/-- The receiver of a call and a constant. -/
def receiverAndConstant : List Instr :=
  [.simple Opcode.aconstNull, .int Opcode.bipush 42]

theorem methodAt?_overriding {type : String} {arguments : List Instr} {p : MethodPlace} {m : MethodDecl}
    (h : (overriding type arguments).methodAt? p = some m) :
    m.name = (if p.owner = "Main" then "main" else "foo") ∧
      m.descriptor = if p.owner = "Main" then "()V" else type := by
  obtain ⟨c, hc, hm⟩ := Option.bind_eq_some_iff.1 h
  obtain ⟨hclass, hname⟩ := ClassPool.get?_eq_some.1 hc
  have hmem := List.mem_of_getElem? hm
  rw [overriding, classes_linked] at hclass
  simp only [List.mem_cons, List.not_mem_nil, or_false] at hclass
  rw [← hname]
  rcases hclass with rfl | rfl | rfl
  · obtain rfl := List.mem_singleton.1 hmem
    exact ⟨rfl, rfl⟩
  · obtain rfl := List.mem_singleton.1 hmem
    exact ⟨rfl, rfl⟩
  · obtain rfl := List.mem_singleton.1 hmem
    exact ⟨rfl, rfl⟩

theorem coherent_overriding (type type' : String) (arguments arguments' : List Instr) :
    Coherent (overriding type arguments) (overriding type' arguments') := by
  intro owner p q m n m' n' hp hq hp' hq' hname _ _
  rw [(methodAt?_overriding hp).1, (methodAt?_overriding hq).1] at hname
  rw [(methodAt?_overriding hp).2, (methodAt?_overriding hq).2, (methodAt?_overriding hp').2,
    (methodAt?_overriding hq').2]
  split at hname <;> split at hname <;> simp_all

/-- The method of `A` with the others that are declared by it. -/
def fooGroup (others : List (MethodPlace × MethodDecl)) : Group :=
  ⟨"A.foo(I)V", (⟨"A", 0⟩, (fooOf "A" "java/lang/Object" "(I)V").methods[0]) :: others⟩

theorem run_overriding : (overriding "(I)V" receiverAndConstant).dropTrailingInts.run =
    ([⟨.info, "Removed opaque predicate arguments: [methods: 2, instructions: 1]."⟩],
      .ok (overriding "()V" [.simple Opcode.aconstNull], 3)) := by
  have hcandidates : droppable (overriding "(I)V" receiverAndConstant) =
      .ok [fooGroup [(⟨"B", 0⟩, (fooOf "B" "A" "(I)V").methods[0])]] := by
    cbv
  have hchosen : eligible (overriding "(I)V" receiverAndConstant)
      [fooGroup [(⟨"B", 0⟩, (fooOf "B" "A" "(I)V").methods[0])]] =
        [fooGroup [(⟨"B", 0⟩, (fooOf "B" "A" "(I)V").methods[0])]] := by
    decide
  have hdrop : drop (overriding "(I)V" receiverAndConstant)
      [fooGroup [(⟨"B", 0⟩, (fooOf "B" "A" "(I)V").methods[0])]] =
        .ok (overriding "()V" [.simple Opcode.aconstNull], 2, 1) := by
    have hsites : (calls (overriding "(I)V" receiverAndConstant)).filter (fun call =>
        (resolve (overriding "(I)V" receiverAndConstant)
          ([fooGroup [(⟨"B", 0⟩, (fooOf "B" "A" "(I)V").methods[0])]].map Group.top) call.ref).isSome) =
          [⟨⟨"Main", 0⟩, 2, ⟨"B", "foo", "(I)V"⟩, true⟩] := by decide
    rw [drop_of_sites hsites]
    cbv
  rw [run_of_drop hcandidates hchosen hdrop]
  rfl

theorem run_capturing : (capturing "(I)V" receiverAndConstant).dropTrailingInts.run =
    ([⟨.info, "Removed opaque predicate arguments: [methods: 1, instructions: 1]."⟩],
      .ok (capturing "()V" [.simple Opcode.aconstNull], 2)) := by
  have hcandidates : droppable (capturing "(I)V" receiverAndConstant) = .ok [fooGroup []] := by cbv
  have hchosen : eligible (capturing "(I)V" receiverAndConstant) [fooGroup []] = [fooGroup []] := by decide
  have hdrop : drop (capturing "(I)V" receiverAndConstant) [fooGroup []] =
      .ok (capturing "()V" [.simple Opcode.aconstNull], 1, 1) := by
    have hsites : (calls (capturing "(I)V" receiverAndConstant)).filter (fun call =>
        (resolve (capturing "(I)V" receiverAndConstant) ([fooGroup []].map Group.top) call.ref).isSome) =
          [⟨⟨"Main", 0⟩, 2, ⟨"B", "foo", "(I)V"⟩, true⟩] := by decide
    rw [drop_of_sites hsites]
    cbv
  rw [run_of_drop hcandidates hchosen hdrop]
  rfl

/-- The call, the method of `B` and the method of `A` that it overrides all lose the parameter. -/
theorem overriding_keeps_links :
    (overriding "(I)V" receiverAndConstant).Acyclic ∧ WellNamed (overriding "(I)V" receiverAndConstant) ∧
      (overriding "(I)V" receiverAndConstant).dropTrailingInts.run =
        ([⟨.info, "Removed opaque predicate arguments: [methods: 2, instructions: 1]."⟩],
          .ok (overriding "()V" [.simple Opcode.aconstNull], 3)) ∧
      Coherent (overriding "(I)V" receiverAndConstant) (overriding "()V" [.simple Opcode.aconstNull]) ∧
      (overriding "(I)V" receiverAndConstant).lookup? ⟨"B", "foo", "(I)V"⟩ = some ⟨"B", 0⟩ ∧
      (overriding "()V" [.simple Opcode.aconstNull]).lookup? ⟨"B", "foo", "()V"⟩ = some ⟨"B", 0⟩ := by
  have hacyclic : (overriding "(I)V" receiverAndConstant).Acyclic :=
    acyclic_linked "(I)V" "(I)V" "(I)V" receiverAndConstant
  have hnames : WellNamed (overriding "(I)V" receiverAndConstant) := by
    unfold WellNamed
    rw [overriding, classes_linked]
    decide
  have hlookup : (overriding "(I)V" receiverAndConstant).lookup? ⟨"B", "foo", "(I)V"⟩ = some ⟨"B", 0⟩ := by decide
  have hcoherent := coherent_overriding "(I)V" "()V" receiverAndConstant [.simple Opcode.aconstNull]
  have hmain : (overriding "(I)V" receiverAndConstant).methodAt? ⟨"Main", 0⟩ =
      some (callerOf "(I)V" receiverAndConstant).methods[0] := by decide
  obtain ⟨m', hm', hcalls⟩ := dropTrailingInts_keeps_links hacyclic hnames run_overriding hcoherent hmain
  obtain rfl : (callerOf "()V" [.simple Opcode.aconstNull]).methods[0] = m' := by
    refine Option.some.inj (Eq.trans ?_ hm')
    decide
  obtain ⟨-, -, -, hlinked⟩ := (List.forall₂_cons.1 hcalls).1
  exact ⟨hacyclic, hnames, run_overriding, hcoherent, hlookup, hlinked _ hlookup (by decide)⟩

/-- The call is linked to the method of `A` before and to that of `B` afterwards. -/
theorem capturing_breaks_link :
    (capturing "(I)V" receiverAndConstant).Acyclic ∧
      (capturing "(I)V" receiverAndConstant).dropTrailingInts.run =
        ([⟨.info, "Removed opaque predicate arguments: [methods: 1, instructions: 1]."⟩],
          .ok (capturing "()V" [.simple Opcode.aconstNull], 2)) ∧
      ((capturing "(I)V" receiverAndConstant).methodAt? ⟨"Main", 0⟩).map (fun m => callRefs m.code) =
        some [⟨"B", "foo", "(I)V"⟩] ∧
      (capturing "(I)V" receiverAndConstant).lookup? ⟨"B", "foo", "(I)V"⟩ = some ⟨"A", 0⟩ ∧
      ((capturing "()V" [.simple Opcode.aconstNull]).methodAt? ⟨"Main", 0⟩).map (fun m => callRefs m.code) =
        some [⟨"B", "foo", "()V"⟩] ∧
      (capturing "()V" [.simple Opcode.aconstNull]).lookup? ⟨"B", "foo", "()V"⟩ = some ⟨"B", 0⟩ :=
  ⟨acyclic_linked "(I)V" "()V" "(I)V" receiverAndConstant, run_capturing, by decide, by decide,
    by decide, by decide⟩

end Examples

end TrailingInt

end Unscramble
