/-
What removing trailing parameters leaves of code and of signatures.  A call loses nothing but the constant in front of
it if no call without such a constant sees two candidates: the first of them is given up for its sake, and the call may
then lead to the second one.  Signatures stay distinct exactly if no two overloads of one class lose parameters in which
alone they differ: each shorter type is compared with the types before the pass only.
-/
import Unscramble.Proofs.Linking
import Unscramble.Proofs.NewNames

namespace Unscramble

namespace TrailingInt

variable {pool after : ClassPool} {candidates : List Group} {lines : List LogLine} {count : Nat}

/-- The last parameter of a method type is held as an `int`. -/
def EndsInInt (descriptor : String) : Prop :=
  ∃ params, Descriptor.parameters descriptor = .ok params ∧ ∃ type ∈ params.getLast?, type.isIntLike = true

section Candidates

theorem endsInInt_of_ignoresLast {m : MethodDecl} (h : ignoresLast m = .ok true) : EndsInInt m.descriptor := by
  obtain ⟨slot?, hslot, hignores⟩ := map_eq_ok.1 h
  obtain ⟨last, hlast, rfl⟩ := map_eq_ok.1 hslot
  obtain ⟨params, hparams, rfl⟩ := map_eq_ok.1 hlast
  refine ⟨params, hparams, ?_⟩
  cases htype : params.getLast? with
  | none => simp [htype] at hignores
  | some type =>
      refine ⟨type, rfl, ?_⟩
      by_contra hnot
      simp [htype, hnot] at hignores

/-- What is known of a method that can lose its last parameter. -/
theorem of_canDrop {place : MethodPlace} {m : MethodDecl} (h : canDrop pool (place, m) = .ok true) :
    EndsInInt m.descriptor ∧ ∃ shorter, Descriptor.dropLastParameter m.descriptor = .ok shorter ∧
      ∀ c, pool.get? place.owner = some c → c.method? m.name shorter = none := by
  obtain ⟨ignores, hignores, h⟩ := bind_eq_ok.1 h
  cases ignores with
  | false => cases h
  | true =>
      refine ⟨endsInInt_of_ignoresLast hignores, ?_⟩
      split at h
      · cases h
      · obtain ⟨shorter, hshorter, h⟩ := bind_eq_ok.1 h
        refine ⟨shorter, hshorter, fun c hc => ?_⟩
        have hfree := Except.ok.inj h
        simpa [hc] using hfree

theorem canDrop_of_mem (hcandidates : droppable pool = .ok candidates) {group : Group}
    (hgroup : group ∈ eligible pool candidates) {member : MethodPlace × MethodDecl} (hmember : member ∈ group.members) :
    canDrop pool member = .ok true := by
  rw [droppable] at hcandidates
  have hall := of_mem_filterM hcandidates (List.mem_filter.1 hgroup).1
  exact of_allM hall hmember

/-- A method that loses its last parameter could lose it. -/
theorem canDrop_of_mem_places (hcandidates : droppable pool = .ok candidates)
    (hdrops : Drops pool (eligible pool candidates) after) {p : MethodPlace} {m : MethodDecl}
    (hat : pool.methodAt? p = some m) (hp : p ∈ Drops.places (eligible pool candidates)) :
    canDrop pool (p, m) = .ok true := by
  obtain ⟨⟨place, n⟩, hmember, rfl⟩ := List.mem_map.1 hp
  obtain ⟨group, hgroup, hmember⟩ := List.mem_flatMap.1 hmember
  obtain ⟨hat', -⟩ := (mem_members (hdrops.groups.subset hgroup)).1 hmember
  obtain rfl := Option.some.inj (hat.symm.trans hat')
  exact canDrop_of_mem hcandidates hgroup hmember

end Candidates

section Code

/-- No call without a constant in front of it sees two candidates. -/
def Unambiguous (pool : ClassPool) : Prop :=
  ∀ candidates, droppable pool = .ok candidates → ∀ call ∈ calls pool, call.afterConstant = false →
    ∀ found found', Sees pool call.ref.name call.ref.owner found → Sees pool call.ref.name call.ref.owner found' →
      (MemberRef.mk found call.ref.name call.ref.descriptor).methodKey ∈ candidates.map Group.top →
      (MemberRef.mk found' call.ref.name call.ref.descriptor).methodKey ∈ candidates.map Group.top → found = found'

/-- Every call that leads to a chosen group comes after a constant. -/
theorem afterConstant_of_unambiguous (hacyclic : pool.Acyclic) (hone : Unambiguous pool)
    (hcandidates : droppable pool = .ok candidates) {call : Call} (hcall : call ∈ calls pool)
    (hleads : (resolve pool ((eligible pool candidates).map Group.top) call.ref).isSome = true) :
    call.afterConstant = true := by
  by_contra hnot
  have hconstant : call.afterConstant = false := by simpa using hnot
  obtain ⟨stage, hstage, hsubset, hgone⟩ := exists_stage_eligible candidates hcall hconstant
  obtain ⟨top, htop⟩ := Option.isSome_iff_exists.1 hleads
  obtain ⟨hmem, found, hsees, hkey⟩ := of_search htop
  -- the call led to a candidate when its turn came, and it sees only one
  obtain ⟨earlier, hearlier⟩ := Option.isSome_iff_exists.1 (isSome_resolve hacyclic hsees (hkey ▸ hsubset hmem))
  obtain ⟨hmem', found', hsees', hkey'⟩ := of_search hearlier
  have hsame : found = found' := hone candidates hcandidates call hcall hconstant found found' hsees hsees'
    (hkey ▸ hstage (hsubset hmem)) (hkey' ▸ hstage hmem')
  have htop' : earlier = top := by rw [hkey, hkey', hsame]
  exact hgone earlier hearlier (htop' ▸ hmem)

/-- A call that leads to a chosen group passes an `int` last. -/
theorem endsInInt_of_leads (hnames : WellNamed pool) (hcandidates : droppable pool = .ok candidates)
    (hdrops : Drops pool (eligible pool candidates) after) {p : MethodPlace} {m : MethodDecl}
    (hat : pool.methodAt? p = some m) {ref : MemberRef} (href : ref ∈ callRefs m.code)
    (hleads : (resolve pool ((eligible pool candidates).map Group.top) ref).isSome = true) :
    EndsInInt ref.descriptor := by
  obtain ⟨top, htop⟩ := Option.isSome_iff_exists.1 hleads
  obtain ⟨-, -, hrefs⟩ := hnames.of_methodAt? hat
  obtain ⟨howner, hmethod⟩ := hrefs ref href
  obtain ⟨hmem, q, n, hq, -, hdescriptor, -, htopq⟩ :=
    exists_of_resolve hnames hdrops.tops_subset howner hmethod htop
  have hplace := (mem_flatMap_members hdrops.groups hq).2 ⟨top, hmem, htopq⟩
  exact hdescriptor ▸ (of_canDrop (canDrop_of_mem_places hcandidates hdrops hq hplace)).1

/-- Removing trailing parameters takes nothing from the code of a method but the constants in front of the calls that it
shortens, each by a last parameter held as an `int`. -/
theorem dropTrailingInts_drops_constants (hacyclic : pool.Acyclic) (hone : Unambiguous pool)
    (hrun : pool.dropTrailingInts.run = (lines, .ok (after, count))) : ∃ shortens : MemberRef → Bool,
      (WellNamed pool → ∀ p m, pool.methodAt? p = some m → ∀ ref ∈ callRefs m.code, shortens ref = true →
        EndsInInt ref.descriptor) ∧
      ∀ p, Option.Rel (fun m m' => m' = { m with code := m'.code, descriptor := m'.descriptor } ∧
        Shortened shortens m.code m'.code) (pool.methodAt? p) (after.methodAt? p) := by
  obtain ⟨candidates, hcandidates, hdrops⟩ := exists_candidates hrun
  refine ⟨fun ref => (resolve pool ((eligible pool candidates).map Group.top) ref).isSome,
    fun hnames p m hat ref href => endsInInt_of_leads hnames hcandidates hdrops hat href, fun p => ?_⟩
  cases hat : pool.methodAt? p with
  | none =>
      have hnone := hdrops.shape.isSome_methodAt? p
      rw [hat, Option.isSome_none, Option.isSome_eq_false_iff, Option.isNone_iff_eq_none] at hnone
      rw [hnone]
      exact .none
  | some m =>
      obtain ⟨code, descriptor, hafter, hcode, -⟩ := hdrops.methods p m hat
      rw [hafter]
      refine .some ⟨rfl, shortened_of_foldrM (fun call hcall hleads => ?_) hcode⟩
      have hcalls : call ∈ calls pool := List.mem_flatMap.2 ⟨(p, m), ClassPool.mem_placedMethods.2 hat, hcall⟩
      exact afterConstant_of_unambiguous hacyclic hone hcandidates hcalls hleads

section Examples

/-- References with one name and one type that are written alike have one owner. -/
theorem owner_inj {found found' name descriptor : String}
    (h : (MemberRef.mk found name descriptor).methodKey = (MemberRef.mk found' name descriptor).methodKey) :
    found = found' := by
  have hchars := congrArg String.toList h
  simpa [MemberRef.methodKey, String.toList_inj] using hchars

/-- A method that does nothing. -/
def idle (name type : String) : MethodDecl where
  name := name
  descriptor := type
  code := [.simple Opcode.vreturn]

/-- A method that calls others. -/
def caller (code : List Instr) : MethodDecl where
  name := "main"
  descriptor := "()V"
  access := Access.staticBit
  code := code

/-- Code that calls `foo` and then `bar`, the latter with a variable. -/
def callingBoth (type : String) (arguments : List Instr) : List Instr :=
  arguments ++ [.method Opcode.invokeVirtual ⟨"B", "foo", type⟩ false, .var Opcode.aload 0, .var Opcode.iload 1,
    .method Opcode.invokeVirtual ⟨"B", "bar", "(I)V"⟩ false, .simple Opcode.vreturn]

/-- The class `B` overrides `foo` of `A`, but not `bar`. -/
def partly (type : String) (arguments : List Instr) : ClassPool :=
  .ofList [{ name := "A", methods := [idle "bar" "(I)V", idle "foo" type] },
    { name := "B", superName := some "A", methods := [idle "foo" type] },
    { name := "Main", methods := [caller (callingBoth type arguments)] }]

theorem classes_partly (type : String) (arguments : List Instr) : (partly type arguments).classes =
    [{ name := "A", methods := [idle "bar" "(I)V", idle "foo" type] },
      { name := "B", superName := some "A", methods := [idle "foo" type] },
      { name := "Main", methods := [caller (callingBoth type arguments)] }] := by
  cbv

theorem acyclic_partly (type : String) (arguments : List Instr) : (partly type arguments).Acyclic := by
  refine ClassPool.acyclic_of_rank
    (fun name => if name = "B" then 2 else if name = "java/lang/Object" then 0 else 1) ?_
  rw [classes_partly]
  simp [ClassDecl.supers]

/-- A receiver and a constant. -/
def constantArgument : List Instr :=
  [.var Opcode.aload 0, .int Opcode.bipush 42]

/-- The methods `foo`, which lose their parameter. -/
def foos : Group :=
  ⟨"A.foo(I)V", [(⟨"A", 1⟩, idle "foo" "(I)V"), (⟨"B", 0⟩, idle "foo" "(I)V")]⟩

/-- The method `bar`, to which a variable is passed. -/
def bars : Group :=
  ⟨"A.bar(I)V", [(⟨"A", 0⟩, idle "bar" "(I)V")]⟩

theorem droppable_partly : droppable (partly "(I)V" constantArgument) = .ok [bars, foos] := by
  cbv

/-- The call of `bar` without a constant sees only the method of `A`. -/
theorem unambiguous_partly : Unambiguous (partly "(I)V" constantArgument) := by
  intro candidates hcandidates call hcall hconstant found found' _ _ hmem hmem'
  obtain rfl := Except.ok.inj (droppable_partly.symm.trans hcandidates)
  have hcalls : calls (partly "(I)V" constantArgument) = [⟨⟨"Main", 0⟩, 2, ⟨"B", "foo", "(I)V"⟩, true⟩,
      ⟨⟨"Main", 0⟩, 5, ⟨"B", "bar", "(I)V"⟩, false⟩] := by decide
  rw [hcalls, List.mem_cons, List.mem_singleton] at hcall
  rcases hcall with rfl | rfl
  · cases hconstant
  · have hbar : ∀ owner, (MemberRef.mk owner "bar" "(I)V").methodKey ∈ [bars, foos].map Group.top →
        (MemberRef.mk owner "bar" "(I)V").methodKey = bars.top := by
      intro owner howner
      rw [List.map_cons, List.map_singleton, List.mem_cons, List.mem_singleton] at howner
      refine howner.resolve_right fun hfoo => ?_
      have hsuffix : ".bar(I)V".toList <:+ foos.top.toList :=
        ⟨owner.toList, by rw [← hfoo]; simp [MemberRef.methodKey]⟩
      exact absurd hsuffix (by decide)
    exact owner_inj ((hbar found hmem).trans (hbar found' hmem').symm)

theorem run_partly : (partly "(I)V" constantArgument).dropTrailingInts.run =
    ([⟨.info, "Removed opaque predicate arguments: [methods: 2, instructions: 1]."⟩],
      .ok (partly "()V" [.var Opcode.aload 0], 3)) := by
  have hchosen : eligible (partly "(I)V" constantArgument) [bars, foos] = [foos] := by cbv
  have hsites : (calls (partly "(I)V" constantArgument)).filter (fun call =>
      (resolve (partly "(I)V" constantArgument) ([foos].map Group.top) call.ref).isSome) =
        [⟨⟨"Main", 0⟩, 2, ⟨"B", "foo", "(I)V"⟩, true⟩] := by decide
  have hdrop : drop (partly "(I)V" constantArgument) [foos] = .ok (partly "()V" [.var Opcode.aload 0], 2, 1) := by
    rw [drop_of_sites hsites]
    cbv
  rw [run_of_drop droppable_partly hchosen hdrop]
  rfl

/-- The constant in front of the call of `foo` goes, while `bar` and its call stay. -/
theorem partly_drops_constants :
    (partly "(I)V" constantArgument).Acyclic ∧ Unambiguous (partly "(I)V" constantArgument) ∧
      (partly "(I)V" constantArgument).dropTrailingInts.run =
        ([⟨.info, "Removed opaque predicate arguments: [methods: 2, instructions: 1]."⟩],
          .ok (partly "()V" [.var Opcode.aload 0], 3)) ∧
      ∃ shortens : MemberRef → Bool, Shortened shortens (callingBoth "(I)V" constantArgument)
          (callingBoth "()V" [.var Opcode.aload 0]) ∧
        ∀ ref ∈ callRefs (callingBoth "(I)V" constantArgument), shortens ref = true → EndsInInt ref.descriptor := by
  have hnames : WellNamed (partly "(I)V" constantArgument) := by
    unfold WellNamed
    rw [classes_partly]
    decide
  have hmain : ∀ type arguments, (partly type arguments).methodAt? ⟨"Main", 0⟩ =
      some (caller (callingBoth type arguments)) := by
    intro type arguments
    cbv
  obtain ⟨shortens, hints, hcode⟩ :=
    dropTrailingInts_drops_constants (acyclic_partly _ _) unambiguous_partly run_partly
  have hshortened := hcode ⟨"Main", 0⟩
  rw [hmain, hmain] at hshortened
  cases hshortened with
  | some h =>
      exact ⟨acyclic_partly _ _, unambiguous_partly, run_partly, shortens, h.2, hints hnames _ _ (hmain _ _)⟩

/-- The class `C` inherits `foo` from an interface and from its super class. -/
def torn (type : String) (code : List Instr) : ClassPool :=
  .ofList [{ name := "C", superName := some "S", interfaces := ["I"] }, { name := "I", methods := [idle "foo" type] },
    { name := "Main", methods := [caller code] }, { name := "S", methods := [idle "foo" "(I)V"] }]

/-- A call of `foo` through the class `C`. -/
def callingC (type : String) (arguments : List Instr) : List Instr :=
  arguments ++ [.method Opcode.invokeVirtual ⟨"C", "foo", type⟩ false, .simple Opcode.vreturn]

/-- A receiver and a variable. -/
def variableArgument : List Instr :=
  [.var Opcode.aload 0, .var Opcode.iload 1]

theorem acyclic_torn (type : String) (code : List Instr) : (torn type code).Acyclic := by
  refine ClassPool.acyclic_of_rank
    (fun name => if name = "C" then 2 else if name = "java/lang/Object" then 0 else 1) ?_
  have hclasses : (torn type code).classes = [{ name := "C", superName := some "S", interfaces := ["I"] },
      { name := "I", methods := [idle "foo" type] }, { name := "Main", methods := [caller code] },
      { name := "S", methods := [idle "foo" "(I)V"] }] := by cbv
  rw [hclasses]
  simp only [ClassDecl.supers, List.forall_mem_cons, Option.toList_some, List.cons_append, List.nil_append]
  simp

theorem run_torn : (torn "(I)V" (callingC "(I)V" variableArgument)).dropTrailingInts.run =
    ([⟨.info, "Removed opaque predicate arguments: [methods: 1, instructions: 1]."⟩],
      .ok (torn "()V" (callingC "()V" [.var Opcode.aload 0]), 2)) := by
  have hcandidates : droppable (torn "(I)V" (callingC "(I)V" variableArgument)) =
      .ok [⟨"I.foo(I)V", [(⟨"I", 0⟩, idle "foo" "(I)V")]⟩, ⟨"S.foo(I)V", [(⟨"S", 0⟩, idle "foo" "(I)V")]⟩] := by cbv
  have hchosen : eligible (torn "(I)V" (callingC "(I)V" variableArgument))
      [⟨"I.foo(I)V", [(⟨"I", 0⟩, idle "foo" "(I)V")]⟩, ⟨"S.foo(I)V", [(⟨"S", 0⟩, idle "foo" "(I)V")]⟩] =
        [⟨"I.foo(I)V", [(⟨"I", 0⟩, idle "foo" "(I)V")]⟩] := by cbv
  have hsites : (calls (torn "(I)V" (callingC "(I)V" variableArgument))).filter (fun call =>
      (resolve (torn "(I)V" (callingC "(I)V" variableArgument)) ["I.foo(I)V"] call.ref).isSome) =
        [⟨⟨"Main", 0⟩, 2, ⟨"C", "foo", "(I)V"⟩, false⟩] := by decide
  have hdrop : drop (torn "(I)V" (callingC "(I)V" variableArgument))
      [⟨"I.foo(I)V", [(⟨"I", 0⟩, idle "foo" "(I)V")]⟩] =
        .ok (torn "()V" (callingC "()V" [.var Opcode.aload 0]), 1, 1) := by
    rw [drop_of_sites hsites]
    cbv
  rw [run_of_drop hcandidates hchosen hdrop]
  rfl

/-- The call passes a variable, for the sake of which the method of `S` is given up.  Then the call leads to that of
`I`, and the variable goes. -/
theorem torn_drops_variable :
    (torn "(I)V" (callingC "(I)V" variableArgument)).Acyclic ∧
      (torn "(I)V" (callingC "(I)V" variableArgument)).dropTrailingInts.run =
        ([⟨.info, "Removed opaque predicate arguments: [methods: 1, instructions: 1]."⟩],
          .ok (torn "()V" (callingC "()V" [.var Opcode.aload 0]), 2)) ∧
      ¬ ∃ shortens : MemberRef → Bool, ∀ p, Option.Rel (fun m m' => Shortened shortens m.code m'.code)
        ((torn "(I)V" (callingC "(I)V" variableArgument)).methodAt? p)
        ((torn "()V" (callingC "()V" [.var Opcode.aload 0])).methodAt? p) := by
  refine ⟨acyclic_torn _ _, run_torn, ?_⟩
  rintro ⟨shortens, h⟩
  have hmain := h ⟨"Main", 0⟩
  have hat : ∀ type code, (torn type code).methodAt? ⟨"Main", 0⟩ = some (caller code) := by
    intro type code
    cbv
  rw [hat, hat] at hmain
  cases hmain with
  | some h =>
      cases h with
      | keep _ h =>
          cases h with
          | shorten hconstant => cases hconstant

end Examples

end Code

section Signatures

/-- Methods of one class with one name and type are one. -/
theorem nodup_methodPairs_iff : (∀ c ∈ pool.classes, c.methodPairs.Nodup) ↔
    ∀ owner i j m n, pool.methodAt? ⟨owner, i⟩ = some m → pool.methodAt? ⟨owner, j⟩ = some n → m.name = n.name →
      m.descriptor = n.descriptor → i = j := by
  simp only [ClassDecl.methodPairs, List.Nodup, List.pairwise_map, ne_eq, Prod.mk.injEq, not_and]
  simp only [List.pairwise_iff_getElem]
  constructor
  · intro h owner i j m n hm hn hname hdescriptor
    obtain ⟨c, hc, hi⟩ := Option.bind_eq_some_iff.1 hm
    obtain ⟨d, hd, hj⟩ := Option.bind_eq_some_iff.1 hn
    obtain rfl := Option.some.inj (hc.symm.trans hd)
    obtain ⟨hilt, rfl⟩ := List.getElem?_eq_some_iff.1 hi
    obtain ⟨hjlt, rfl⟩ := List.getElem?_eq_some_iff.1 hj
    have hdistinct := h c (ClassPool.get?_eq_some.1 hc).1
    rcases Nat.lt_trichotomy i j with hlt | heq | hgt
    · exact absurd hdescriptor (hdistinct i j hilt hjlt hlt hname)
    · exact heq
    · exact absurd hdescriptor.symm (hdistinct j i hjlt hilt hgt hname.symm)
  · intro h c hc i j hi hj hlt hname hdescriptor
    have hget := ClassPool.get?_eq_some.2 ⟨hc, rfl⟩
    have heq := h c.name i j c.methods[i] c.methods[j] (by simp [ClassPool.methodAt?, hget])
      (by simp [ClassPool.methodAt?, hget]) hname hdescriptor
    omega

/-- What a method was before. -/
theorem Drops.exists_before {chosen : List Group} (hdrops : Drops pool chosen after) {p : MethodPlace} {m' : MethodDecl}
    (hat : after.methodAt? p = some m') : ∃ m, pool.methodAt? p = some m ∧ m'.name = m.name ∧
      (p ∈ places chosen → Descriptor.dropLastParameter m.descriptor = .ok m'.descriptor) ∧
      (p ∉ places chosen → m'.descriptor = m.descriptor) := by
  have hsome := hdrops.shape.isSome_methodAt? p
  rw [hat, Option.isSome_some, eq_comm, Option.isSome_iff_exists] at hsome
  obtain ⟨m, hm⟩ := hsome
  obtain ⟨m'', hm'', h⟩ := hdrops.exists_after hm
  obtain rfl := Option.some.inj (hat.symm.trans hm'')
  exact ⟨m, hm, h⟩

/-- The type of a method changes. -/
def Loses (pool after : ClassPool) (p : MethodPlace) : Prop :=
  (after.methodAt? p).map MethodDecl.descriptor ≠ (pool.methodAt? p).map MethodDecl.descriptor

theorem loses_iff (hdrops : Drops pool (eligible pool candidates) after) {p : MethodPlace} {m : MethodDecl}
    (hat : pool.methodAt? p = some m) : Loses pool after p ↔ p ∈ Drops.places (eligible pool candidates) := by
  obtain ⟨m', hafter, -, hshorter, hsame⟩ := hdrops.exists_after hat
  rw [Loses, hafter, hat, Option.map_some, Option.map_some, ne_eq, Option.some.injEq]
  constructor
  · intro hne
    by_contra hnot
    exact hne (hsame hnot)
  · exact fun hmem => Descriptor.dropLastParameter_ne (hshorter hmem)

/-- A method that loses its last parameter gets no type that another method of its class keeps. -/
theorem ne_of_kept (hcandidates : droppable pool = .ok candidates)
    (hdrops : Drops pool (eligible pool candidates) after) {owner : String} {i j : Nat} {m' n' : MethodDecl}
    (hm : after.methodAt? ⟨owner, i⟩ = some m') (hn : after.methodAt? ⟨owner, j⟩ = some n') (hname : m'.name = n'.name)
    (hi : ⟨owner, i⟩ ∈ Drops.places (eligible pool candidates))
    (hj : ⟨owner, j⟩ ∉ Drops.places (eligible pool candidates)) : m'.descriptor ≠ n'.descriptor := by
  obtain ⟨m, hm, hnamem, hdropped, -⟩ := hdrops.exists_before hm
  obtain ⟨n, hn, hnamen, -, hsame⟩ := hdrops.exists_before hn
  obtain ⟨-, shorter, hshorter, hfree⟩ := of_canDrop (canDrop_of_mem_places hcandidates hdrops hm hi)
  obtain rfl := Except.ok.inj (hshorter.symm.trans (hdropped hi))
  obtain ⟨c, hc, hmem⟩ := Option.bind_eq_some_iff.1 hn
  have hnone := hfree c hc
  rw [ClassDecl.method?, List.find?_eq_none] at hnone
  intro heq
  refine hnone n (List.mem_of_getElem? hmem) ?_
  simp [MethodDecl.is, ← hnamem, ← hnamen, hname, heq, hsame hj]

/-- After removing trailing parameters no class declares a method twice, exactly if no two methods of a class that have
one name and both lose a parameter differ in this parameter only. -/
theorem dropTrailingInts_distinct_iff (hdistinct : ∀ c ∈ pool.classes, c.methodPairs.Nodup)
    (hrun : pool.dropTrailingInts.run = (lines, .ok (after, count))) : (∀ c ∈ after.classes, c.methodPairs.Nodup) ↔
      ∀ owner i j m n, i ≠ j → pool.methodAt? ⟨owner, i⟩ = some m → pool.methodAt? ⟨owner, j⟩ = some n →
        m.name = n.name → Loses pool after ⟨owner, i⟩ → Loses pool after ⟨owner, j⟩ →
        Descriptor.dropLastParameter m.descriptor ≠ Descriptor.dropLastParameter n.descriptor := by
  obtain ⟨candidates, hcandidates, hdrops⟩ := exists_candidates hrun
  rw [nodup_methodPairs_iff] at hdistinct ⊢
  constructor
  · intro h owner i j m n hne hm hn hname hi hj heq
    obtain ⟨m', hm', hname', hshorter, -⟩ := hdrops.exists_after hm
    obtain ⟨n', hn', hname'', hshorter', -⟩ := hdrops.exists_after hn
    have hdescriptor := hshorter ((loses_iff hdrops hm).1 hi)
    rw [heq, hshorter' ((loses_iff hdrops hn).1 hj)] at hdescriptor
    exact hne (h owner i j m' n' hm' hn' (by rw [hname', hname'', hname]) (Except.ok.inj hdescriptor).symm)
  · intro h owner i j m' n' hm' hn' hname hdescriptor
    obtain ⟨m, hm, hnamem, hshorterm, hsamem⟩ := hdrops.exists_before hm'
    obtain ⟨n, hn, hnamen, hshortern, hsamen⟩ := hdrops.exists_before hn'
    have hnames : m.name = n.name := by rw [← hnamem, ← hnamen, hname]
    by_cases hi : ⟨owner, i⟩ ∈ Drops.places (eligible pool candidates)
    · by_cases hj : ⟨owner, j⟩ ∈ Drops.places (eligible pool candidates)
      · by_contra hne
        refine h owner i j m n hne hm hn hnames ((loses_iff hdrops hm).2 hi) ((loses_iff hdrops hn).2 hj) ?_
        rw [hshorterm hi, hshortern hj, hdescriptor]
      · exact absurd hdescriptor (ne_of_kept hcandidates hdrops hm' hn' hname hi hj)
    · by_cases hj : ⟨owner, j⟩ ∈ Drops.places (eligible pool candidates)
      · exact absurd hdescriptor.symm (ne_of_kept hcandidates hdrops hn' hm' hname.symm hj hi)
      · exact hdistinct owner i j m n hm hn hnames (by rw [← hsamem hi, ← hsamen hj, hdescriptor])

section Examples

/-- A class with two overloads of `foo`. -/
def overloads (type type' : String) : ClassPool where
  classes := [{ name := "A", methods := [idle "foo" type, idle "foo" type'] }]
  ordered := List.pairwise_singleton _ _

/-- The overloads as groups of their own. -/
def overloadGroups (type type' : String) : List Group :=
  [⟨"A.foo" ++ type, [(⟨"A", 0⟩, idle "foo" type)]⟩, ⟨"A.foo" ++ type', [(⟨"A", 1⟩, idle "foo" type')]⟩]

theorem run_overloads {type type' shorter shorter' : String}
    (hcandidates : droppable (overloads type type') = .ok (overloadGroups type type'))
    (hdrop : drop (overloads type type') (overloadGroups type type') = .ok (overloads shorter shorter', 2, 0)) :
    (overloads type type').dropTrailingInts.run =
      ([⟨.info, "Removed opaque predicate arguments: [methods: 2, instructions: 0]."⟩],
        .ok (overloads shorter shorter', 2)) := by
  have hchosen : eligible (overloads type type') (overloadGroups type type') = overloadGroups type type' := by
    have hcalls : calls (overloads type type') = [] := rfl
    rw [eligible, hcalls]
    exact List.filter_eq_self.2 fun g hg => List.contains_iff_mem.2 (List.mem_map_of_mem hg)
  rw [run_of_drop hcandidates hchosen hdrop]
  rfl

/-- The overloads differ in their first parameters too. -/
theorem overloads_distinct :
    (∀ c ∈ (overloads "(II)V" "(JI)V").classes, c.methodPairs.Nodup) ∧
      (overloads "(II)V" "(JI)V").dropTrailingInts.run =
        ([⟨.info, "Removed opaque predicate arguments: [methods: 2, instructions: 0]."⟩],
          .ok (overloads "(I)V" "(J)V", 2)) ∧
      ∀ c ∈ (overloads "(I)V" "(J)V").classes, c.methodPairs.Nodup := by
  have hdistinct : ∀ c ∈ (overloads "(II)V" "(JI)V").classes, c.methodPairs.Nodup := by decide
  have hrun : (overloads "(II)V" "(JI)V").dropTrailingInts.run =
      ([⟨.info, "Removed opaque predicate arguments: [methods: 2, instructions: 0]."⟩],
        .ok (overloads "(I)V" "(J)V", 2)) :=
    run_overloads (by cbv) (by cbv)
  refine ⟨hdistinct, hrun, (dropTrailingInts_distinct_iff hdistinct hrun).2 ?_⟩
  have hat : ∀ owner k m, (overloads "(II)V" "(JI)V").methodAt? ⟨owner, k⟩ = some m →
      (k = 0 ∧ m.descriptor = "(II)V") ∨ (k = 1 ∧ m.descriptor = "(JI)V") := by
    intro owner k m hm
    obtain ⟨c, hc, hk⟩ := Option.bind_eq_some_iff.1 hm
    obtain rfl := List.mem_singleton.1 (ClassPool.get?_eq_some.1 hc).1
    obtain ⟨hlt, rfl⟩ := List.getElem?_eq_some_iff.1 hk
    rcases Nat.lt_succ_iff_lt_or_eq.1 (show k < 2 from hlt) with hzero | rfl
    · obtain rfl := Nat.lt_one_iff.1 hzero
      exact .inl ⟨rfl, rfl⟩
    · exact .inr ⟨rfl, rfl⟩
  intro owner i j m n hne hm hn _ _ _
  rcases hat owner i m hm with ⟨rfl, hi⟩ | ⟨rfl, hi⟩ <;> rcases hat owner j n hn with ⟨rfl, hj⟩ | ⟨rfl, hj⟩
  · exact absurd rfl hne
  · rw [hi, hj]
    decide +kernel
  · rw [hi, hj]
    decide +kernel
  · exact absurd rfl hne

/-- The overloads differ in the parameter only that both of them lose. -/
theorem overloads_clash :
    (overloads "(I)V" "(Z)V").Acyclic ∧ (∀ c ∈ (overloads "(I)V" "(Z)V").classes, c.methodPairs.Nodup) ∧
      (overloads "(I)V" "(Z)V").dropTrailingInts.run =
        ([⟨.info, "Removed opaque predicate arguments: [methods: 2, instructions: 0]."⟩],
          .ok (overloads "()V" "()V", 2)) ∧
      ¬ ∀ c ∈ (overloads "()V" "()V").classes, c.methodPairs.Nodup := by
  refine ⟨ClassPool.acyclic_of_rank (fun name => if name = "A" then 1 else 0) ?_, by decide,
    run_overloads (by cbv) (by cbv), by decide⟩
  simp [overloads, ClassDecl.supers]

end Examples

end Signatures

end TrailingInt

end Unscramble
