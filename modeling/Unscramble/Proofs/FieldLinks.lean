/-
Links of instructions to fields through three passes: resolving owners links every instruction that reaches its field
through super classes, moving static fields keeps every link, and so does removing the fields without use, since what a
linked instruction names is used.
-/
import Unscramble.Cleanup.Unused
import Unscramble.Proofs.FieldMoves

namespace Unscramble.ClassPool

variable {pool : ClassPool} {p : MethodPlace} {i : Nat} {op : Opcode} {ref : MemberRef} {f : FieldDecl} {c : ClassDecl}
  {name descriptor top : String}

section Resolving

/-- A class without two fields of one name and type declares the field that an instruction names, static as it should
be, exactly if the first field of this name and type is so. -/
theorem exists_field?_of_declaresField (hdistinct : (c.fields.map fun f => (f.name, f.descriptor)).Nodup)
    (h : c.declaresField op ref = true) :
    ∃ f, c.field? ref.name ref.descriptor = some f ∧ f.isStatic = op.isStaticAccess := by
  obtain ⟨f, hf, hfits⟩ := List.any_eq_true.1 h
  rw [Bool.and_eq_true, beq_iff_eq] at hfits
  obtain ⟨first, hfirst⟩ := Option.isSome_iff_exists.1 (List.find?_isSome.2 ⟨f, hf, hfits.1⟩)
  have his : f.name = ref.name ∧ f.descriptor = ref.descriptor := by
    simpa [FieldDecl.is] using hfits.1
  have hsame := FieldMove.is_of_field? hfirst
  obtain rfl := List.inj_on_of_nodup_map hdistinct (List.mem_of_find?_eq_some hfirst) hf
    (Prod.ext (hsame.1.trans his.1.symm) (hsame.2.trans his.2.symm))
  exact ⟨first, hfirst, hfits.2⟩

/-- An instruction whose field is declared on the way up through super classes names the nearest such class
afterwards. -/
theorem linked_resolved (hrooted : pool.Rooted) (hfields : pool.DistinctFields)
    (hinstr : pool.instrAt? p i = some (.field op ref))
    (hnearest : pool.Nearest (·.declaresField op ref) ref.owner top) :
    ∃ c f, pool.get? top = some c ∧ c.field? ref.name ref.descriptor = some f ∧ f.isStatic = op.isStaticAccess ∧
      pool.resolved.Linked p i op f := by
  obtain ⟨c, hget, hdeclares⟩ := hnearest.holds
  obtain ⟨f, hfield, hstatic⟩ := exists_field?_of_declaresField (hfields c (get?_eq_some.1 hget).1) hdeclares
  have hafter := instrAt?_resolved hinstr
  rw [FieldOwner.resolve_eq_of_nearest hrooted hnearest] at hafter
  obtain ⟨hname, hdescriptor⟩ := FieldMove.is_of_field? hfield
  refine ⟨c, f, hget, hfield, hstatic, top, _, ?_, (get?_mapMethods _).trans (congrArg _ hget), ?_⟩
  · rw [hname, hdescriptor]
    exact hafter
  · rw [hname, hdescriptor]
    exact hfield

theorem distinctFields_resolved (hfields : pool.DistinctFields) : pool.resolved.DistinctFields := by
  intro c hc
  obtain ⟨before, hbefore, rfl⟩ := List.mem_map.1 hc
  exact hfields before hbefore

end Resolving

section Unused

/-- The pool without the fields that no instruction names. -/
def withoutUnusedFields (pool : ClassPool) : ClassPool :=
  pool.mapMembers (fun c => c.fields.filter fun f => f.isFinal || pool.usedFields.contains (c.fieldKey f))
    ClassDecl.methods

theorem run_removeUnusedFields (ε : Type) (pool : ClassPool) :
    ∃ lines count, (pool.removeUnusedFields : Logged ε (ClassPool × Nat)).run =
      (lines, .ok (pool.withoutUnusedFields, count)) :=
  ⟨_, _, rfl⟩

theorem instrAt?_withoutUnusedFields : pool.withoutUnusedFields.instrAt? p i = pool.instrAt? p i := by
  rw [instrAt?, instrAt?, methodAt?, methodAt?, withoutUnusedFields, get?_mapMembers]
  cases pool.get? p.owner <;> rfl

theorem mem_usedFields (h : pool.instrAt? p i = some (.field op ref)) : ref.fieldKey ∈ pool.usedFields := by
  obtain ⟨m, hm, hinstr⟩ := Option.bind_eq_some_iff.1 h
  obtain ⟨c, hget, hindex⟩ := Option.bind_eq_some_iff.1 hm
  have hmethod : (c, m) ∈ pool.methods := mem_methods.2 ⟨(get?_eq_some.1 hget).1, List.mem_of_getElem? hindex⟩
  refine List.mem_filterMap.2 ⟨_, List.mem_flatMap.2 ⟨(c, m), hmethod, List.mem_of_getElem? hinstr⟩, rfl⟩

/-- What is found first is still found first if it passes a filter. -/
theorem find?_filter_of_find? {α : Type} {q r : α → Bool} {l : List α} {a : α} (h : l.find? r = some a)
    (ha : q a = true) : (l.filter q).find? r = some a := by
  obtain ⟨hr, before, behind, rfl, hbefore⟩ := List.find?_eq_some_iff_append.1 h
  refine List.find?_eq_some_iff_append.2 ⟨hr, before.filter q, behind.filter q, ?_, ?_⟩
  · rw [List.filter_append, List.filter_cons_of_pos ha]
  · exact fun b hb => hbefore b (List.mem_filter.1 hb).1

/-- Removing fields without use keeps every link. -/
theorem Linked.withoutUnusedFields (h : pool.Linked p i op f) : pool.withoutUnusedFields.Linked p i op f := by
  obtain ⟨owner, c, hinstr, hget, hfield⟩ := h
  refine ⟨owner, _, instrAt?_withoutUnusedFields.trans hinstr, (get?_mapMembers _ _).trans (congrArg _ hget), ?_⟩
  have hused := mem_usedFields hinstr
  rw [← (get?_eq_some.1 hget).2] at hused
  refine find?_filter_of_find? hfield ?_
  rw [Bool.or_eq_true, List.contains_iff_mem]
  exact .inr hused

end Unused

/-- After owners are resolved, static fields moved and unused fields removed, every instruction whose field is declared
on the way up through super classes names a class of the pool that declares the field as the nearest such class did. -/
theorem fieldPasses_keep_links {ε : Type} (hrooted : pool.Rooted) (hfields : pool.DistinctFields) :
    ∃ lines₁ resolved count₁ lines₂ relocated count₂ lines₃ after count₃,
      (pool.resolveFieldOwners : Logged ε (ClassPool × Nat)).run = (lines₁, .ok (resolved, count₁)) ∧
      (resolved.relocateStaticFields : Logged ε (ClassPool × Nat)).run = (lines₂, .ok (relocated, count₂)) ∧
      (relocated.removeUnusedFields : Logged ε (ClassPool × Nat)).run = (lines₃, .ok (after, count₃)) ∧
      ∀ p i op ref top, pool.instrAt? p i = some (.field op ref) →
        pool.Nearest (·.declaresField op ref) ref.owner top →
        ∃ c f owner c', pool.get? top = some c ∧ c.field? ref.name ref.descriptor = some f ∧
          f.isStatic = op.isStaticAccess ∧ after.instrAt? p i = some (.field op { ref with owner }) ∧
          after.get? owner = some c' ∧ c'.field? ref.name ref.descriptor = some f := by
  obtain ⟨lines₁, count₁, hresolve⟩ := run_resolveFieldOwners ε pool
  obtain ⟨lines₂, count₂, hmove⟩ := run_relocateStaticFields ε pool.resolved
  obtain ⟨lines₃, count₃, hremove⟩ := run_removeUnusedFields ε pool.resolved.relocated
  refine ⟨lines₁, _, count₁, lines₂, _, count₂, lines₃, _, count₃, hresolve, hmove, hremove, ?_⟩
  intro p i op ref top hinstr hnearest
  obtain ⟨c, f, hget, hfield, hstatic, hlinked⟩ := linked_resolved hrooted hfields hinstr hnearest
  have hmoves := FieldMove.awaited_all (distinctFields_resolved hfields)
  obtain ⟨owner, c', hafter, hget', hfield'⟩ := (hmoves.linked_foldl hlinked).withoutUnusedFields
  obtain ⟨hname, hdescriptor⟩ := FieldMove.is_of_field? hfield
  rw [hname, hdescriptor] at hafter hfield'
  exact ⟨c, f, owner, c', hget, hfield, hstatic, hafter, hget', hfield'⟩

/-- The field of the super class is moved to the only class that reads it. -/
theorem inheriting_keeps_links :
    (inheriting true false).Rooted ∧ (inheriting true false).DistinctFields ∧
      (inheriting true false).instrAt? ⟨"C", 0⟩ 0 = some (.field Opcode.getStatic ⟨"C", "x", "I"⟩) ∧
      (inheriting true false).Nearest (·.declaresField Opcode.getStatic ⟨"C", "x", "I"⟩) "C" "S" ∧
      ∃ lines₁ resolved count₁ lines₂ relocated count₂ lines₃ after count₃,
        ((inheriting true false).resolveFieldOwners : Logged Empty (ClassPool × Nat)).run =
          (lines₁, .ok (resolved, count₁)) ∧
        (resolved.relocateStaticFields : Logged Empty (ClassPool × Nat)).run = (lines₂, .ok (relocated, count₂)) ∧
        (relocated.removeUnusedFields : Logged Empty (ClassPool × Nat)).run = (lines₃, .ok (after, count₃)) ∧
        ∃ owner c, after.instrAt? ⟨"C", 0⟩ 0 = some (.field Opcode.getStatic ⟨owner, "x", "I"⟩) ∧
          after.get? owner = some c ∧ c.field? "x" "I" = some sharedField := by
  have hc : (inheriting true false).get? "C" = some inheritor := by cbv
  have hs : (inheriting true false).get? "S" = some { name := "S", fields := [sharedField] } := by cbv
  have hfields : (inheriting true false).DistinctFields := by
    rw [DistinctFields, classes_inheriting]
    decide
  have hinstr : (inheriting true false).instrAt? ⟨"C", 0⟩ 0 =
      some (.field Opcode.getStatic ⟨"C", "x", "I"⟩) := by
    cbv
  have hnearest : (inheriting true false).Nearest (·.declaresField Opcode.getStatic ⟨"C", "x", "I"⟩) "C" "S" :=
    .inherited hc rfl rfl (.own hs rfl)
  have hrooted := (acyclic_inheriting true false).rooted
  obtain ⟨lines₁, resolved, count₁, lines₂, relocated, count₂, lines₃, after, count₃, hresolve, hmove, hremove, hall⟩ :=
    fieldPasses_keep_links (ε := Empty) hrooted hfields
  obtain ⟨c, f, owner, c', hget, hfield, -, hafter, hget', hfield'⟩ := hall _ _ _ _ _ hinstr hnearest
  obtain rfl := Option.some.inj (hs.symm.trans hget)
  obtain rfl : sharedField = f := Option.some.inj hfield
  exact ⟨hrooted, hfields, hinstr, hnearest, lines₁, resolved, count₁, lines₂, relocated, count₂, lines₃, after, count₃,
    hresolve, hmove, hremove, owner, c', hafter, hget', hfield'⟩

end Unscramble.ClassPool
