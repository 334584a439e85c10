/-
Moving static fields loses and doubles none.  The moves are planned at the start and made one after the other, each only
if its target can still take the field.  A move that is made takes one declaration from its class and gives it to the
target, where no field of that name was; so the field that arrives is none of those that are still to be moved, and
all moves together carry every field at most once.
-/
import Mathlib.Data.List.Perm.Basic
import Unscramble.Proofs.FieldMoves

namespace Unscramble

/-- The fields of all classes, each with the name of its class. -/
def ClassPool.placedFields (pool : ClassPool) : List (String × FieldDecl) :=
  pool.classes.flatMap fun c => c.fields.map (c.name, ·)

/-- The field as an instruction names it. -/
def fieldRef (p : String × FieldDecl) : MemberRef :=
  ⟨p.1, p.2.name, p.2.descriptor⟩

namespace FieldMove

open ClassPool

variable {pool next after : ClassPool} {move : FieldMove} {made rest : List FieldMove} {moved : FieldDecl}
  {target : ClassDecl} {p : String × FieldDecl} {ref : MemberRef}

section Runs

/-- A move can be made: its target is no interface and has no field with the name of the one that it takes. -/
structure Makes (pool : ClassPool) (move : FieldMove) (moved : FieldDecl) (target : ClassDecl) : Prop where
  target_eq : pool.get? move.target = some target
  not_interface : target.isInterface = false
  clear : ∀ f ∈ target.fields, f.name ≠ move.field.name
  moved_eq : move.declaration? pool = some moved

/-- Moves are made one after the other. -/
inductive Carried : ClassPool → List FieldMove → ClassPool → Prop where
  | nil (pool : ClassPool) : Carried pool [] pool
  | cons {pool after : ClassPool} {move : FieldMove} {rest : List FieldMove} {moved : FieldDecl} {target : ClassDecl} :
      Makes pool move moved target → Carried (pool.map (move.update moved) (move.name_update moved)) rest after →
      Carried pool (move :: rest) after

theorem makes_iff : (∃ target, Makes pool move moved target) ↔
    (pool.get? move.target).any (canReceive move.field.name) = true ∧ move.declaration? pool = some moved := by
  rw [Option.any_eq_true]
  constructor
  · rintro ⟨target, h⟩
    refine ⟨⟨target, h.target_eq, ?_⟩, h.moved_eq⟩
    simpa [canReceive, h.not_interface] using h.clear
  · rintro ⟨⟨target, htarget, hreceives⟩, hmoved⟩
    simp only [canReceive, Bool.and_eq_true, Bool.not_eq_true', List.any_eq_false, beq_iff_eq] at hreceives
    exact ⟨target, htarget, hreceives.1, hreceives.2, hmoved⟩

theorem Makes.carry_eq (h : Makes pool move moved target) :
    carry pool move = pool.map (move.update moved) (move.name_update moved) := by
  obtain ⟨hreceives, hmoved⟩ := makes_iff.1 ⟨target, h⟩
  rw [carry, if_pos hreceives, hmoved]

/-- One move of a plan is made and counted, or left out. -/
theorem apply_cases (ε : Type) (pool : ClassPool) (count : Nat) (move : FieldMove) (log : Log) :
    (∃ log', (apply (pool, count) move : Logged ε (ClassPool × Nat)) log = .ok (pool, count) log') ∨
      ∃ moved target log', Makes pool move moved target ∧ (apply (pool, count) move : Logged ε (ClassPool × Nat)) log =
        .ok (pool.map (move.update moved) (move.name_update moved), count + 1) log' := by
  unfold apply
  dsimp only
  split
  · next hreceives =>
      cases hmoved : move.declaration? pool with
      | none => exact .inl ⟨log, rfl⟩
      | some moved =>
          obtain ⟨target, hmakes⟩ := makes_iff.2 ⟨hreceives, hmoved⟩
          exact .inr ⟨moved, target, log, hmakes, rfl⟩
  · exact .inl ⟨_, rfl⟩

/-- Of a plan, some moves are made, in order. -/
theorem exists_carried (ε : Type) (moves : List FieldMove) (pool : ClassPool) (count : Nat) (log : Log) :
    ∃ made after log', made.Sublist moves ∧ Carried pool made after ∧
      (moves.foldlM apply (pool, count) : Logged ε (ClassPool × Nat)) log = .ok (after, count + made.length) log' := by
  induction moves generalizing pool count log with
  | nil => exact ⟨[], pool, log, .slnil, .nil pool, rfl⟩
  | cons move moves ih =>
      rw [List.foldlM_cons]
      simp only [bind, EStateM.bind]
      rcases apply_cases ε pool count move log with ⟨log₁, hfirst⟩ | ⟨moved, target, log₁, hmakes, hfirst⟩
      · obtain ⟨made, after, log₂, hsub, hcarried, hrun⟩ := ih pool count log₁
        refine ⟨made, after, log₂, hsub.cons move, hcarried, ?_⟩
        rw [hfirst]
        exact hrun
      · obtain ⟨made, after, log₂, hsub, hcarried, hrun⟩ := ih (pool.map (move.update moved) _) (count + 1) log₁
        refine ⟨move :: made, after, log₂, hsub.cons_cons move, .cons hmakes hcarried, ?_⟩
        rw [hfirst, List.length_cons, ← Nat.add_assoc, Nat.add_right_comm]
        exact hrun

theorem Carried.split {before later : List FieldMove} (h : Carried pool (before ++ later) after) :
    ∃ current, Carried pool before current ∧ Carried current later after := by
  induction before generalizing pool with
  | nil => exact ⟨pool, .nil pool, h⟩
  | cons move before ih =>
      cases h with
      | cons hmakes hrest =>
          obtain ⟨current, hbefore, hlater⟩ := ih hrest
          exact ⟨current, .cons hmakes hbefore, hlater⟩

end Runs

section Whereabouts

/-- Where a field is after some moves. -/
def whereabouts (made : List FieldMove) (ref : MemberRef) : MemberRef :=
  match made.find? (·.field == ref) with
  | some move => { ref with owner := move.target }
  | none => ref

/-- An instruction that names a field where it is after some moves. -/
def follow (made : List FieldMove) : Instr → Instr
  | .field op ref => .field op (whereabouts made ref)
  | instr => instr

/-- A field in the class in which it is after some moves. -/
def destination (made : List FieldMove) (p : String × FieldDecl) : String × FieldDecl :=
  ((whereabouts made (fieldRef p)).owner, p.2)

theorem whereabouts_cons (move : FieldMove) (rest : List FieldMove) (ref : MemberRef) :
    whereabouts (move :: rest) ref =
      if move.field = ref then { ref with owner := move.target } else whereabouts rest ref := by
  rw [whereabouts, List.find?_cons]
  by_cases href : move.field = ref
  · rw [if_pos href, beq_iff_eq.2 href]
  · rw [if_neg href, beq_eq_false_iff_ne.2 href]
    rfl

theorem whereabouts_of_not_mem (h : ref ∉ made.map FieldMove.field) : whereabouts made ref = ref := by
  rw [whereabouts, List.find?_eq_none.2]
  intro move hmove hfield
  exact h (List.mem_map.2 ⟨move, hmove, eq_of_beq hfield⟩)

theorem whereabouts_of_mem (hdistinct : (made.map FieldMove.field).Nodup) (hmove : move ∈ made) :
    whereabouts made move.field = { move.field with owner := move.target } := by
  induction made with
  | nil => cases hmove
  | cons first rest ih =>
      obtain ⟨hfirst, hdistinct⟩ := List.nodup_cons.1 hdistinct
      rw [whereabouts_cons]
      rcases List.mem_cons.1 hmove with rfl | hmove
      · rw [if_pos rfl]
      · have hne : first.field ≠ move.field := fun heq => hfirst (by rw [heq]; exact List.mem_map_of_mem hmove)
        rw [if_neg hne, ih hdistinct hmove]

/-- The first of some moves can be followed for itself, if what arrives is not to be moved again. -/
theorem whereabouts_whereabouts (hfresh : { move.field with owner := move.target } ∉ rest.map FieldMove.field)
    (ref : MemberRef) : whereabouts rest (whereabouts [move] ref) = whereabouts (move :: rest) ref := by
  rw [whereabouts_cons move rest, whereabouts_cons move []]
  by_cases href : move.field = ref
  · subst href
    rw [if_pos rfl, if_pos rfl, whereabouts_of_not_mem hfresh]
  · rw [if_neg href, if_neg href]
    rfl

theorem fieldRef_destination (made : List FieldMove) (p : String × FieldDecl) :
    fieldRef (destination made p) = whereabouts made (fieldRef p) := by
  rw [whereabouts, destination, whereabouts]
  split <;> rfl

theorem follow_follow (hfresh : { move.field with owner := move.target } ∉ rest.map FieldMove.field) (instr : Instr) :
    follow rest (follow [move] instr) = follow (move :: rest) instr := by
  cases instr with
  | field op ref => exact congrArg (Instr.field op) (whereabouts_whereabouts hfresh ref)
  | _ => rfl

theorem destination_destination (hfresh : { move.field with owner := move.target } ∉ rest.map FieldMove.field)
    (p : String × FieldDecl) : destination rest (destination [move] p) = destination (move :: rest) p := by
  rw [destination, fieldRef_destination, whereabouts_whereabouts hfresh]
  rfl

theorem redirect_eq (move : FieldMove) (instr : Instr) : move.redirect instr = follow [move] instr := by
  cases instr with
  | field op ref =>
      rw [redirect, follow, whereabouts_cons]
      by_cases href : move.field = ref
      · rw [if_pos href, if_pos href.symm]
      · rw [if_neg href, if_neg (Ne.symm href)]
        rfl
  | _ => rfl

end Whereabouts

section Step

/-- The names of instructions of a class tell its fields apart from those of all others. -/
theorem nodup_fieldRefs (hfields : pool.DistinctFields) : (pool.placedFields.map fieldRef).Nodup := by
  rw [placedFields, List.map_flatMap, List.nodup_flatMap]
  refine ⟨fun c hc => ?_, (List.pairwise_map.1 pool.ordered).imp fun {c d} hlt ref hfirst hsecond => ?_⟩
  · rw [List.map_map]
    have hdistinct := hfields c hc
    rw [List.Nodup, List.pairwise_map] at hdistinct ⊢
    exact hdistinct.imp fun hne heq => hne (Prod.ext (congrArg MemberRef.name heq) (congrArg MemberRef.descriptor heq))
  · obtain ⟨_, hp, rfl⟩ := List.mem_map.1 hfirst
    obtain ⟨f, -, rfl⟩ := List.mem_map.1 hp
    obtain ⟨_, hq, heq⟩ := List.mem_map.1 hsecond
    obtain ⟨g, -, rfl⟩ := List.mem_map.1 hq
    rw [show c.name = d.name from (congrArg MemberRef.owner heq).symm] at hlt
    exact String.lt_irrefl _ hlt

theorem mem_placedFields {f : FieldDecl} {owner : String} :
    (owner, f) ∈ pool.placedFields ↔ ∃ c, pool.get? owner = some c ∧ f ∈ c.fields := by
  simp only [placedFields, List.mem_flatMap, List.mem_map, Prod.mk.injEq, get?_eq_some]
  constructor
  · rintro ⟨c, hc, f, hf, rfl, rfl⟩
    exact ⟨c, ⟨hc, rfl⟩, hf⟩
  · rintro ⟨c, ⟨hc, rfl⟩, hf⟩
    exact ⟨c, hc, f, hf, rfl, rfl⟩

/-- What stands for one class of a pool stands there once. -/
theorem flatMap_of_name {α : Type} {c : ClassDecl} (hc : c ∈ pool.classes) (items : List α) :
    (pool.classes.flatMap fun d => if d.name = c.name then items else []) = items := by
  have hordered := pool.ordered
  obtain ⟨before, behind, hsplit⟩ := List.append_of_mem hc
  rw [hsplit, List.map_append, List.map_cons, List.pairwise_append, List.pairwise_cons] at hordered
  obtain ⟨-, ⟨hbehind, -⟩, hbefore⟩ := hordered
  rw [hsplit, List.flatMap_append, List.flatMap_cons, if_pos rfl, List.flatMap_eq_nil_iff.2, List.flatMap_eq_nil_iff.2,
    List.nil_append, List.append_nil]
  · intro d hd
    refine if_neg fun heq => String.lt_irrefl c.name ?_
    exact heq ▸ hbehind d.name (List.mem_map_of_mem hd)
  · intro d hd
    refine if_neg fun heq => String.lt_irrefl c.name ?_
    exact heq ▸ hbefore d.name (List.mem_map_of_mem hd) c.name List.mem_cons_self

/-- Where keys are distinct, an item stands beside those with other keys. -/
theorem perm_cons_filter {α β : Type} [DecidableEq β] {key : α → β} {items : List α} {a : α}
    (hdistinct : (items.map key).Nodup) (ha : a ∈ items) : items.Perm (a :: items.filter (key · ≠ key a)) := by
  obtain ⟨before, behind, rfl⟩ := List.append_of_mem ha
  rw [List.map_append, List.map_cons] at hdistinct
  obtain ⟨-, hbehind, hbefore⟩ := List.nodup_append.1 hdistinct
  have hothers : (before ++ a :: behind).filter (key · ≠ key a) = before ++ behind := by
    rw [List.filter_append, List.filter_cons_of_neg (by simp), List.filter_eq_self.2, List.filter_eq_self.2]
    · intro b hb
      exact decide_eq_true fun heq => (List.nodup_cons.1 hbehind).1 (heq ▸ List.mem_map_of_mem hb)
    · intro b hb
      exact decide_eq_true (hbefore _ (List.mem_map_of_mem hb) _ List.mem_cons_self)
  rw [hothers]
  exact List.perm_middle

theorem eraseP_eq_filter {α : Type} {q : α → Bool} {items : List α}
    (h : items.Pairwise fun a b => q a = true → q b = false) : items.eraseP q = items.filter (!q ·) := by
  induction items with
  | nil => rfl
  | cons a rest ih =>
      obtain ⟨hfirst, hrest⟩ := List.pairwise_cons.1 h
      cases hq : q a with
      | true =>
          rw [List.eraseP_cons_of_pos hq, List.filter_cons_of_neg (by simp [hq]), List.filter_eq_self.2]
          exact fun b hb => by rw [hfirst b hb hq]; rfl
      | false => rw [List.eraseP_cons_of_neg (by simp [hq]), List.filter_cons_of_pos (by simp [hq]), ih hrest]

/-- The fields of a class that are not to be moved. -/
def keptFields (move : FieldMove) (c : ClassDecl) : List (String × FieldDecl) :=
  (c.fields.map (c.name, ·)).filter (fieldRef · ≠ move.field)

theorem keptFields_of_ne {c : ClassDecl} (h : c.name ≠ move.field.owner) :
    keptFields move c = c.fields.map (c.name, ·) := by
  refine List.filter_eq_self.2 fun p hp => decide_eq_true ?_
  obtain ⟨f, -, rfl⟩ := List.mem_map.1 hp
  exact fun heq => h (congrArg MemberRef.owner heq)

theorem fieldRef_eq_iff {c : ClassDecl} (howner : c.name = move.field.owner) {f : FieldDecl} :
    fieldRef (c.name, f) = move.field ↔ f.is move.field.name move.field.descriptor = true := by
  obtain ⟨⟨owner, name, descriptor⟩, target⟩ := move
  simp only [fieldRef, howner, FieldDecl.is, MemberRef.mk.injEq, true_and, Bool.and_eq_true, beq_iff_eq]

/-- A class loses the field that is moved, or takes it, or keeps its fields. -/
theorem fields_update_perm (hforeign : move.target ≠ move.field.owner) {c : ClassDecl}
    (hdistinct : (c.fields.map fun f => (f.name, f.descriptor)).Nodup) :
    ((move.update moved c).fields.map (c.name, ·)).Perm
      ((if c.name = move.target then [(move.target, moved)] else []) ++ keptFields move c) := by
  unfold update
  by_cases howner : c.name = move.field.owner
  · have hpairwise : c.fields.Pairwise fun f g => f.is move.field.name move.field.descriptor = true →
        g.is move.field.name move.field.descriptor = false := by
      refine (List.pairwise_map.1 hdistinct).imp fun {f g} hne hf => ?_
      rw [Bool.eq_false_iff]
      intro hg
      simp only [FieldDecl.is, Bool.and_eq_true, beq_iff_eq] at hf hg
      exact hne (by rw [hf.1, hf.2, hg.1, hg.2])
    rw [if_pos howner, if_neg (howner ▸ hforeign.symm), List.nil_append, eraseP_eq_filter hpairwise, keptFields,
      List.filter_map]
    refine .of_eq (congrArg _ (List.filter_congr fun f _ => ?_))
    rw [Function.comp_apply, Bool.eq_iff_iff, Bool.not_eq_true', Bool.eq_false_iff, decide_eq_true_iff,
      ne_eq, ne_eq, fieldRef_eq_iff howner]
  · rw [if_neg howner, keptFields_of_ne howner]
    by_cases htarget : c.name = move.target
    · rw [if_pos htarget, if_pos htarget, List.map_append, ← htarget]
      exact List.perm_append_comm
    · rw [if_neg htarget, if_neg htarget]
      exact .refl _

theorem Makes.mem_placedFields (h : Makes pool move moved target) :
    (move.field.owner, moved) ∈ pool.placedFields ∧ fieldRef (move.field.owner, moved) = move.field := by
  obtain ⟨c, hget, hfield⟩ := declaration?_eq_some.1 h.moved_eq
  obtain ⟨hname, hdescriptor⟩ := is_of_field? hfield
  refine ⟨FieldMove.mem_placedFields.2 ⟨c, hget, List.mem_of_find?_eq_some hfield⟩, ?_⟩
  rw [fieldRef, hname, hdescriptor]

open scoped List in
/-- A move changes the class of one field. -/
theorem Makes.fields_perm (h : Makes pool move moved target) (hforeign : move.target ≠ move.field.owner)
    (hfields : pool.DistinctFields) :
    (pool.map (move.update moved) (move.name_update moved)).placedFields.Perm
      (pool.placedFields.map (destination [move])) := by
  obtain ⟨hmem, href⟩ := h.mem_placedFields
  have hbefore : pool.placedFields.Perm
      ((move.field.owner, moved) :: pool.placedFields.filter (fieldRef · ≠ move.field)) := by
    have hperm := perm_cons_filter (nodup_fieldRefs hfields) hmem
    rwa [href] at hperm
  have hmoved : destination [move] (move.field.owner, moved) = (move.target, moved) := by
    rw [destination, href, whereabouts_cons, if_pos rfl]
  have hothers : (pool.placedFields.filter (fieldRef · ≠ move.field)).map (destination [move]) =
      pool.placedFields.filter (fieldRef · ≠ move.field) := by
    rw [List.map_congr_left fun p hp => ?_, List.map_id]
    have hne := of_decide_eq_true (List.mem_filter.1 hp).2
    rw [destination, whereabouts_cons, if_neg (Ne.symm hne)]
    rfl
  have harrives : (pool.classes.flatMap fun c => if c.name = move.target then [(move.target, moved)] else []) =
      [(move.target, moved)] := by
    obtain ⟨htarget, hname⟩ := get?_eq_some.1 h.target_eq
    rw [← hname, flatMap_of_name htarget]
  calc (pool.map (move.update moved) (move.name_update moved)).placedFields
    _ = pool.classes.flatMap fun c => (move.update moved c).fields.map (c.name, ·) := by
      rw [placedFields, ClassPool.map, List.flatMap_map]
      simp only [name_update]
    _ ~ pool.classes.flatMap fun c =>
        (if c.name = move.target then [(move.target, moved)] else []) ++ keptFields move c :=
      List.Perm.flatMap_left _ fun c hc => fields_update_perm hforeign (hfields c hc)
    _ ~ (move.target, moved) :: pool.placedFields.filter (fieldRef · ≠ move.field) := by
      refine (List.flatMap_append_perm _ _ _).symm.trans ?_
      rw [harrives, placedFields, List.filter_flatMap]
      exact .refl _
    _ ~ pool.placedFields.map (destination [move]) := by
      refine .trans (.of_eq ?_) (hbefore.map (destination [move])).symm
      rw [List.map_cons, hmoved, hothers]

/-- A move leaves the fields of each class distinct. -/
theorem Makes.distinct (h : Makes pool move moved target) (hfields : pool.DistinctFields) :
    (pool.map (move.update moved) (move.name_update moved)).DistinctFields := by
  intro d hd
  obtain ⟨c, hc, rfl⟩ := List.mem_map.1 hd
  unfold update
  split
  · exact (hfields c hc).sublist (List.eraseP_sublist.map _)
  · split
    · next htarget =>
        obtain rfl : c = target :=
          Option.some.inj ((get?_eq_some.2 ⟨hc, htarget⟩).symm.trans h.target_eq)
        rw [List.map_append, List.nodup_append]
        refine ⟨hfields c hc, List.nodup_singleton _, ?_⟩
        intro key hkey key' hkey' heq
        obtain ⟨f, hf, rfl⟩ := List.mem_map.1 hkey
        obtain rfl := List.mem_singleton.1 hkey'
        obtain ⟨_, _, hfield⟩ := declaration?_eq_some.1 h.moved_eq
        exact h.clear f hf ((congrArg Prod.fst heq).trans (is_of_field? hfield).1)
    · exact hfields c hc

/-- The methods of a class whose instructions follow some moves. -/
def followed (made : List FieldMove) (methods : List MethodDecl) : List MethodDecl :=
  methods.map fun m => { m with code := m.code.map (follow made) }

theorem followed_nil (methods : List MethodDecl) : followed [] methods = methods := by
  have hfollow : follow [] = id := by
    funext instr
    cases instr <;> rfl
  simp [followed, hfollow]

theorem followed_followed (hfresh : { move.field with owner := move.target } ∉ rest.map FieldMove.field)
    (methods : List MethodDecl) : followed rest (followed [move] methods) = followed (move :: rest) methods := by
  simp only [followed, List.map_map, Function.comp_def, follow_follow hfresh]

/-- Code that does not name the field of a move does not follow it. -/
theorem followed_of_unused {methods : List MethodDecl}
    (h : ∀ m ∈ methods, ∀ op, Instr.field op move.field ∉ m.code) : followed [move] methods = methods := by
  have hcode : ∀ m ∈ methods, m.code.map (follow [move]) = m.code := by
    intro m hm
    refine (List.map_congr_left fun instr hinstr => ?_).trans (List.map_id _)
    cases instr with
    | field op ref =>
        have hne : move.field ≠ ref := fun heq => h m hm op (heq ▸ hinstr)
        rw [follow, whereabouts_cons, if_neg hne]
        rfl
    | _ => rfl
  rw [followed]
  refine (List.map_congr_left fun m hm => ?_).trans (List.map_id _)
  rw [hcode m hm]
  rfl

/-- A move changes fields only, and in all code the names of the field that it moves. -/
theorem Makes.classes_eq (hawaited : Awaited pool (move :: rest)) :
    (pool.map (move.update moved) (move.name_update moved)).classes = pool.classes.map fun c =>
      { c with fields := (move.update moved c).fields, methods := followed [move] c.methods } := by
  refine List.map_congr_left fun c hc => ?_
  have hunused : c.name ≠ move.target → followed [move] c.methods = c.methods := by
    intro hne
    refine followed_of_unused fun m hm op hinstr => ?_
    obtain ⟨index, hindex⟩ := List.mem_iff_getElem?.1 hm
    obtain ⟨i, hi⟩ := List.mem_iff_getElem?.1 hinstr
    refine hne (hawaited.used move List.mem_cons_self ⟨c.name, index⟩ i op ?_)
    rw [instrAt?, methodAt?, get?_eq_some.2 ⟨hc, rfl⟩, Option.bind_some, hindex, Option.bind_some, hi]
  unfold update
  split
  · next howner =>
      have hne : c.name ≠ move.target := by
        rw [howner]
        exact (hawaited.foreign move List.mem_cons_self).symm
      rw [hunused hne]
  · split
    · simp only [followed, ← funext (redirect_eq move)]
    · next hne => rw [hunused hne]

end Step

section Relocation

/-- What moves make of a pool: nothing but fields and the names of moved fields changes, and each field is where the
moves carry it. -/
structure Relocates (pool after : ClassPool) (made : List FieldMove) : Prop where
  classes_eq : ∃ fields : ClassDecl → List FieldDecl,
    after.classes = pool.classes.map fun c => { c with fields := fields c, methods := followed made c.methods }
  fields_perm : after.placedFields.Perm (pool.placedFields.map (destination made))
  distinct : after.DistinctFields

theorem Awaited.sublist {moves : List FieldMove} (h : Awaited pool moves) (hsub : made.Sublist moves) :
    Awaited pool made where
  distinct := h.distinct.sublist (hsub.map _)
  foreign move hmove := h.foreign move (hsub.subset hmove)
  declared move hmove := h.declared move (hsub.subset hmove)
  used move hmove := h.used move (hsub.subset hmove)

/-- The field that arrives with a move is none of those that are still to be moved: the target had none of its name. -/
theorem Makes.fresh (h : Makes pool move moved target) (hawaited : Awaited pool (move :: rest)) :
    { move.field with owner := move.target } ∉ rest.map FieldMove.field := by
  intro hmem
  obtain ⟨later, hlater, heq⟩ := List.mem_map.1 hmem
  obtain ⟨f, hf⟩ := Option.isSome_iff_exists.1 (hawaited.declared later (List.mem_cons_of_mem move hlater))
  obtain ⟨c, hget, hfield⟩ := declaration?_eq_some.1 hf
  rw [heq] at hget hfield
  obtain rfl := Option.some.inj (h.target_eq.symm.trans hget)
  exact h.clear f (List.mem_of_find?_eq_some hfield) (is_of_field? hfield).1

/-- Moves in a row carry every field at most once. -/
theorem Carried.relocates (h : Carried pool made after) (hawaited : Awaited pool made)
    (hfields : pool.DistinctFields) : Relocates pool after made := by
  induction h with
  | nil pool =>
      refine ⟨⟨ClassDecl.fields, ?_⟩, .of_eq (List.map_id _).symm, hfields⟩
      simp only [followed_nil]
      exact (List.map_id _).symm
  | @cons pool after move rest moved target hmakes _ ih =>
      have hnext : Awaited (pool.map (move.update moved) (move.name_update moved)) rest := by
        rw [← hmakes.carry_eq]
        exact hawaited.carry
      obtain ⟨⟨fields, hclasses⟩, hperm, hdistinct⟩ := ih hnext (hmakes.distinct hfields)
      have hfresh := hmakes.fresh hawaited
      have hforeign := hawaited.foreign move List.mem_cons_self
      refine ⟨⟨fun c => fields { c with
          fields := (move.update moved c).fields
          methods := followed [move] c.methods }, ?_⟩, ?_, hdistinct⟩
      · rw [hclasses, Makes.classes_eq hawaited, List.map_map]
        exact List.map_congr_left fun c _ => by rw [Function.comp_apply, followed_followed hfresh]
      · refine hperm.trans (((hmakes.fields_perm hforeign hfields).map _).trans (.of_eq ?_))
        rw [List.map_map]
        exact List.map_congr_left fun p _ => destination_destination hfresh p

/-- A field changes its class exactly if it has a move. -/
theorem destination_ne_iff (hdistinct : (made.map FieldMove.field).Nodup)
    (hforeign : ∀ move ∈ made, move.target ≠ move.field.owner) :
    destination made p ≠ p ↔ ∃ move ∈ made, move.field = fieldRef p := by
  constructor
  · intro hne
    by_contra hnone
    have hnot : fieldRef p ∉ made.map FieldMove.field := fun hmem => hnone (List.mem_map.1 hmem)
    exact hne (by rw [destination, whereabouts_of_not_mem hnot]; rfl)
  · rintro ⟨move, hmove, hfield⟩ heq
    have howner := congrArg Prod.fst heq
    rw [destination, ← hfield, whereabouts_of_mem hdistinct hmove] at howner
    refine hforeign move hmove (howner.trans ?_)
    rw [hfield]
    rfl

/-- As many fields change their class as moves are made. -/
theorem Awaited.length_eq (h : Awaited pool made) (hfields : pool.DistinctFields) :
    (pool.placedFields.filter fun p => destination made p ≠ p).length = made.length := by
  have hperm : ((pool.placedFields.filter fun p => destination made p ≠ p).map fieldRef).Perm
      (made.map FieldMove.field) := by
    refine (List.perm_ext_iff_of_nodup ((nodup_fieldRefs hfields).sublist (List.filter_sublist.map _)) h.distinct).2 ?_
    intro ref
    simp only [List.mem_map, List.mem_filter, decide_eq_true_eq, destination_ne_iff h.distinct h.foreign]
    constructor
    · rintro ⟨p, ⟨-, move, hmove, hfield⟩, rfl⟩
      exact ⟨move, hmove, hfield⟩
    · rintro ⟨move, hmove, rfl⟩
      obtain ⟨f, hf⟩ := Option.isSome_iff_exists.1 (h.declared move hmove)
      obtain ⟨c, hget, hfield⟩ := declaration?_eq_some.1 hf
      obtain ⟨hname, hdescriptor⟩ := is_of_field? hfield
      have href : move.field = fieldRef (move.field.owner, f) := by rw [fieldRef, hname, hdescriptor]
      have hplaced := mem_placedFields.2 ⟨c, hget, List.mem_of_find?_eq_some hfield⟩
      exact ⟨(move.field.owner, f), ⟨hplaced, move, hmove, href⟩, href.symm⟩
  simpa using hperm.length_eq

/-- A move that is planned is that of a static field with one user, another class. -/
theorem of_mem_all (hfields : pool.DistinctFields) (hp : p ∈ pool.placedFields) (hmove : move ∈ all pool)
    (hfield : move.field = fieldRef p) :
    p.2.isStatic = true ∧ users pool (fieldRef p) = [move.target] ∧ move.target ≠ p.1 := by
  obtain ⟨c, hc, f, hf, hof⟩ := mem_all.1 hmove
  obtain ⟨hstatic, husers, hne, hplanned⟩ := ofField?_eq_some.1 hof
  have hplaced : (c.name, f) ∈ pool.placedFields := mem_placedFields.2 ⟨c, get?_eq_some.2 ⟨hc, rfl⟩, hf⟩
  obtain rfl : (c.name, f) = p :=
    List.inj_on_of_nodup_map (nodup_fieldRefs hfields) hplaced hp (hplanned.symm.trans hfield)
  exact ⟨hstatic, husers, hne⟩

end Relocation

end FieldMove

namespace ClassPool

open FieldMove

variable {pool : ClassPool}

/-- Moving static fields keeps all fields.  It counts those that change their class; each of them is static and goes to
the one class that uses it, no interface and not its own, which had no field of its name at that moment. -/
theorem relocateStaticFields_keeps_fields {ε : Type} (hfields : pool.DistinctFields) : ∃ lines after made,
    (pool.relocateStaticFields : Logged ε (ClassPool × Nat)).run = (lines, .ok (after, made.length)) ∧
    Relocates pool after made ∧
    (after.classes.flatMap ClassDecl.fields).Perm (pool.classes.flatMap ClassDecl.fields) ∧
    (pool.placedFields.filter fun p => destination made p ≠ p).length = made.length ∧
    ∀ p ∈ pool.placedFields, destination made p ≠ p → p.2.isStatic = true ∧
      ∃ user, users pool (fieldRef p) = [user] ∧ user ≠ p.1 ∧ (user, p.2) ∈ after.placedFields ∧
        destination made p = (user, p.2) ∧ ∃ before later current target,
          made = before ++ ⟨fieldRef p, user⟩ :: later ∧ Carried pool before current ∧
          Carried current (⟨fieldRef p, user⟩ :: later) after ∧ current.get? user = some target ∧
          target.isInterface = false ∧ ∀ f ∈ target.fields, f.name ≠ p.2.name := by
  obtain ⟨made, after, log, hsub, hcarried, hrun⟩ := exists_carried ε (all pool) pool 0 []
  have hawaited := (awaited_all hfields).sublist hsub
  have hrelocates := hcarried.relocates hawaited hfields
  refine ⟨(⟨.info, s!"Inlined {made.length} static single reference fields."⟩ :: log).reverse, after, made, ?_,
    hrelocates, ?_, hawaited.length_eq hfields, ?_⟩
  · rw [Nat.zero_add] at hrun
    simp only [relocateStaticFields, Logged.run, EStateM.run, bind, EStateM.bind, hrun]
    rfl
  · have hsnd : ∀ pool : ClassPool, pool.placedFields.map Prod.snd = pool.classes.flatMap ClassDecl.fields := by
      intro pool
      simp [placedFields, List.map_flatMap, Function.comp_def]
    have hperm := hrelocates.fields_perm.map Prod.snd
    rw [List.map_map] at hperm
    rw [← hsnd, ← hsnd]
    exact hperm
  · intro p hp hne
    obtain ⟨⟨field, user⟩, hmove, rfl⟩ := (destination_ne_iff hawaited.distinct hawaited.foreign).1 hne
    obtain ⟨hstatic, husers, hother⟩ := of_mem_all hfields hp (hsub.subset hmove) rfl
    have hdestination : destination made p = (user, p.2) := by
      have hwhere := whereabouts_of_mem hawaited.distinct hmove
      rw [destination]
      exact congrArg (·.owner, p.2) hwhere
    have harrived : destination made p ∈ after.placedFields :=
      hrelocates.fields_perm.mem_iff.2 (List.mem_map_of_mem hp)
    refine ⟨hstatic, user, husers, hother, hdestination ▸ harrived, hdestination, ?_⟩
    obtain ⟨before, later, rfl⟩ := List.append_of_mem hmove
    obtain ⟨current, hbefore, hlater⟩ := hcarried.split
    cases hlater with
    | cons hmakes hrest =>
        exact ⟨before, later, current, _, rfl, hbefore, .cons hmakes hrest, hmakes.target_eq, hmakes.not_interface,
          hmakes.clear⟩

section Examples

/-- A class that reads the field of another one. -/
def borrower : ClassDecl where
  name := "B"
  methods := [{
    name := "read"
    descriptor := "()I"
    access := Access.staticBit
    code := [.field Opcode.getStatic ⟨"A", "x", "I"⟩, .simple Opcode.ireturn] }]

/-- A class with a field that only the other class uses. -/
def lending : ClassPool :=
  .ofList [{ name := "A", fields := [sharedField] }, borrower]

theorem classes_lending : lending.classes = [{ name := "A", fields := [sharedField] }, borrower] := by
  decide

/-- The field goes to the class that reads it. -/
theorem lending_keeps_fields :
    lending.DistinctFields ∧ ∃ lines after made,
      (lending.relocateStaticFields : Logged Empty (ClassPool × Nat)).run = (lines, .ok (after, made.length)) ∧
      made.length = 1 ∧ Relocates lending after made ∧ after.classes.flatMap ClassDecl.fields = [sharedField] := by
  have hfields : lending.DistinctFields := by
    rw [DistinctFields, classes_lending]
    decide
  have hcount : (lending.relocateStaticFields : Logged Empty (ClassPool × Nat)).run.2.map Prod.snd = .ok 1 := by
    decide
  obtain ⟨lines, after, made, hrun, hrelocates, hperm, -⟩ := relocateStaticFields_keeps_fields (ε := Empty) hfields
  refine ⟨hfields, lines, after, made, hrun, ?_, hrelocates, ?_⟩
  · rw [hrun] at hcount
    exact Except.ok.inj hcount
  · rw [classes_lending] at hperm
    exact List.perm_singleton.1 hperm

end Examples

end ClassPool

end Unscramble
