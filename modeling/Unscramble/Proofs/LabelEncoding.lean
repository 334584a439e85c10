/-
Encoding and the places of labels.  Encoding a method looks up the labels that it uses, and nothing else can miss one,
so a class whose methods place all labels that they use is never refused for one.
-/
import Unscramble.Proofs.ClassReading
import Unscramble.Proofs.Labels

namespace Unscramble.ClassFile

open PoolBuilder

/-- The label without a place for which something cannot be encoded. -/
def EncodeFault.unplaced? : EncodeFault → Option Label
  | unplacedLabel l => some l
  | instr _ _ reason => reason.unplaced?
  | field _ reason => reason.unplaced?
  | method _ _ reason => reason.unplaced?
  | _ => none

section Rules

variable {α β : Type} {x : Encoder α} {f : α → Encoder β}

/-- The result is not that a label has no place. -/
def FindsLabels (result : Except EncodeFault α) : Prop :=
  ∀ e, result = .error e → e.unplaced? = none

theorem FindsLabels.ok (a : α) : FindsLabels (.ok a) :=
  nofun

theorem FindsLabels.error {e : EncodeFault} (h : e.unplaced? = none) :
    FindsLabels (.error e : Except EncodeFault α) := by
  rintro e' heq
  exact Except.error.inj heq ▸ h

theorem FindsLabels.andThen {result : Except EncodeFault α} {next : α → Except EncodeFault β} (h : FindsLabels result)
    (hnext : ∀ a, result = .ok a → FindsLabels (next a)) : FindsLabels (result >>= next) := by
  cases result with
  | error e => exact .error (h e rfl)
  | ok a => exact hnext a rfl

theorem FindsLabels.mapM {items : List α} {g : α → Except EncodeFault β} (h : ∀ a ∈ items, FindsLabels (g a)) :
    FindsLabels (items.mapM g) := by
  induction items with
  | nil => exact .ok []
  | cons a rest ih =>
      rw [List.mapM_cons]
      refine (h a List.mem_cons_self).andThen fun _ _ => ?_
      exact (ih fun a' ha' => h a' (List.mem_cons_of_mem a ha')).andThen fun _ _ => .ok _

/-- The computation finds the labels from every pool on. -/
def Encoder.FindsLabels (x : Encoder α) : Prop :=
  ∀ b, ClassFile.FindsLabels (x.run b)

namespace Encoder.FindsLabels

theorem pure (a : α) : Encoder.FindsLabels (Pure.pure a) :=
  fun b => .ok (a, b)

theorem throw {e : EncodeFault} (h : e.unplaced? = none) : Encoder.FindsLabels (MonadExcept.throw e : Encoder α) :=
  fun _ => .error h

/-- The rest of a computation may rely on what the first part gave. -/
theorem bind' (h : Encoder.FindsLabels x)
    (hnext : ∀ b a b', x.run b = .ok (a, b') → Encoder.FindsLabels (f a)) : Encoder.FindsLabels (x >>= f) := by
  intro b
  rw [StateT.run_bind]
  exact (h b).andThen fun p hp => hnext b p.1 p.2 hp p.2

theorem bind (h : Encoder.FindsLabels x) (hnext : ∀ a, Encoder.FindsLabels (f a)) : Encoder.FindsLabels (x >>= f) :=
  h.bind' fun _ a _ _ => hnext a

theorem lift {result : Except EncodeFault α} (h : ClassFile.FindsLabels result) :
    Encoder.FindsLabels (liftM result) := by
  intro b
  cases result with
  | error e => exact .error (h e rfl)
  | ok a => exact .ok (a, b)

theorem mapError {wrap : EncodeFault → EncodeFault} (hwrap : ∀ e, (wrap e).unplaced? = e.unplaced?)
    (h : Encoder.FindsLabels x) : Encoder.FindsLabels (fun b => (x b).mapError wrap) := by
  intro b e heq
  change (x b).mapError wrap = .error e at heq
  cases hx : x b with
  | ok p => simp [hx, Except.mapError] at heq
  | error e' =>
      rw [hx] at heq
      rw [← Except.error.inj heq, hwrap]
      exact h b e' hx

theorem mapM {items : List α} (h : ∀ a ∈ items, Encoder.FindsLabels (f a)) : Encoder.FindsLabels (items.mapM f) := by
  induction items with
  | nil => exact .pure []
  | cons a rest ih =>
      rw [List.mapM_cons]
      refine (h a List.mem_cons_self).bind fun _ => ?_
      exact (ih fun a' ha' => h a' (List.mem_cons_of_mem a ha')).bind fun _ => .pure _

end Encoder.FindsLabels

end Rules

section Entries

theorem findsLabels_intern (e : PoolEntry) : Encoder.FindsLabels (intern e) := by
  intro b
  cases h : b.indexes[e]? with
  | some index =>
      rw [intern_of_some h]
      exact .ok _
  | none =>
      rw [intern_of_none h]
      split
      · exact .error rfl
      · exact .ok _

theorem findsLabels_utf8 (text : String) : Encoder.FindsLabels (utf8 text) :=
  findsLabels_intern _

theorem findsLabels_classRef (name : String) : Encoder.FindsLabels (classRef name) :=
  (findsLabels_utf8 name).bind fun _ => findsLabels_intern _

theorem findsLabels_member (kind : MemberKind) (ref : MemberRef) : Encoder.FindsLabels (member kind ref) := by
  refine (findsLabels_classRef ref.owner).bind fun _ => ?_
  refine (findsLabels_utf8 ref.name).bind fun _ => ?_
  refine (findsLabels_utf8 ref.descriptor).bind fun _ => ?_
  exact (findsLabels_intern _).bind fun _ => findsLabels_intern _

theorem findsLabels_loadable (value : Constant) : Encoder.FindsLabels (loadable value) := by
  cases value with
  | string text => exact (findsLabels_utf8 text).bind fun _ => findsLabels_intern _
  | classRef name => exact findsLabels_classRef name
  | _ => exact findsLabels_intern _

theorem findsLabels_countBytes (what : String) (count : Nat) : FindsLabels (countBytes what count) := by
  unfold countBytes
  split
  · exact .error rfl
  · exact .ok _

theorem findsLabels_attributeBytes (name : UInt16) (body : Bytes) : FindsLabels (attributeBytes name body) := by
  unfold attributeBytes
  split
  · exact .error rfl
  · exact .ok _

theorem findsLabels_poolEncode (b : PoolBuilder) : FindsLabels b.encode := by
  refine (FindsLabels.mapM fun e _ => ?_).andThen fun _ _ => .ok _
  cases e with
  | utf8 text =>
      unfold PoolEntry.encode
      dsimp only
      split
      · exact .error rfl
      · exact .ok _
  | _ => exact .ok _

end Entries

namespace Code

variable {offsets : List (Label × Nat)} {offset : Nat} {placed : List (Instr × Nat)}

theorem map_fst_foldlM_layout {code : List Instr} {done : List (Instr × Nat)} {offset : Nat} {b b' : PoolBuilder}
    {result : List (Instr × Nat) × Nat}
    (h : (code.foldlM (fun (placed, offset) instr => do
      let size ← encodedSize offset instr
      pure ((instr, offset) :: placed, offset + size)) (done, offset) : Encoder _).run b = .ok (result, b')) :
    result.1.map Prod.fst = code.reverse ++ done.map Prod.fst := by
  induction code generalizing done offset b with
  | nil =>
      cases h
      rfl
  | cons instr rest ih =>
      rw [List.foldlM_cons, StateT.run_bind] at h
      obtain ⟨⟨state, b₁⟩, hfirst, h⟩ := bind_eq_ok.1 h
      rw [StateT.run_bind] at hfirst
      obtain ⟨⟨size, b₂⟩, -, hfirst⟩ := bind_eq_ok.1 hfirst
      cases hfirst
      rw [ih h]
      simp

/-- The layout of code has all its instructions. -/
theorem map_fst_layout {code : List Instr} {length : Nat} {b b' : PoolBuilder}
    (h : (layout code).run b = .ok ((placed, length), b')) : placed.map Prod.fst = code := by
  rw [layout, StateT.run_bind] at h
  obtain ⟨⟨result, b₁⟩, hresult, h⟩ := bind_eq_ok.1 h
  cases h
  rw [List.map_reverse, map_fst_foldlM_layout hresult]
  simp

theorem exists_offset {l : Label} (h : .label l ∈ placed.map Prod.fst) :
    ∃ offset, offsetOf (labelOffsets placed) l = .ok offset := by
  obtain ⟨⟨instr, offset⟩, hmem, rfl⟩ := List.mem_map.1 h
  unfold offsetOf
  cases hlookup : (labelOffsets placed).lookup l with
  | some offset => exact ⟨offset, rfl⟩
  | none =>
      refine absurd ?_ (not_mem_of_lookup hlookup offset)
      rw [labelOffsets_eq, List.mem_reverse, List.mem_filterMap]
      exact ⟨_, hmem, rfl⟩

theorem findsLabels_offsetOf {l : Label} (h : ∃ o, offsetOf offsets l = .ok o) : FindsLabels (offsetOf offsets l) := by
  obtain ⟨o, ho⟩ := h
  rw [ho]
  exact .ok o

theorem findsLabels_distance {l : Label} (h : ∃ o, offsetOf offsets l = .ok o) :
    FindsLabels (distance offsets offset l) := by
  obtain ⟨o, ho⟩ := h
  rw [distance, ho]
  exact .ok _

theorem findsLabels_shortDistance {l : Label} (h : ∃ o, offsetOf offsets l = .ok o) :
    FindsLabels (shortDistance offsets offset l) := by
  refine (findsLabels_distance h).andThen fun d _ => ?_
  dsimp only
  split
  · exact .error rfl
  · exact .ok _

theorem findsLabels_longDistance {l : Label} (h : ∃ o, offsetOf offsets l = .ok o) :
    FindsLabels (longDistance offsets offset l) := by
  refine (findsLabels_distance h).andThen fun d _ => ?_
  dsimp only
  split
  · exact .error rfl
  · exact .ok _

theorem findsLabels_encodedSize (offset : Nat) (instr : Instr) : Encoder.FindsLabels (encodedSize offset instr) := by
  cases instr with
  | ldc value => exact (findsLabels_loadable value).bind fun _ => .pure _
  | _ => exact .pure _

theorem findsLabels_foldlM_layout (code : List Instr) (state : List (Instr × Nat) × Nat) :
    Encoder.FindsLabels (code.foldlM (fun (placed, offset) instr => do
      let size ← encodedSize offset instr
      pure ((instr, offset) :: placed, offset + size)) state) := by
  induction code generalizing state with
  | nil => exact .pure state
  | cons instr rest ih =>
      rw [List.foldlM_cons]
      exact ((findsLabels_encodedSize state.2 instr).bind fun _ => .pure _).bind ih

theorem findsLabels_layout (code : List Instr) : Encoder.FindsLabels (layout code) :=
  (findsLabels_foldlM_layout code _).bind fun _ => .pure _

theorem findsLabels_instr {instr : Instr} (h : ∀ l ∈ instr.targets, ∃ o, offsetOf offsets l = .ok o) :
    Encoder.FindsLabels (encodeInstr offsets offset instr) := by
  cases instr with
  | ldc value => exact (findsLabels_loadable value).bind fun _ => .pure _
  | type op name => exact (findsLabels_classRef name).bind fun _ => .pure _
  | field op ref => exact (findsLabels_member .field ref).bind fun _ => .pure _
  | method op ref onInterface =>
      refine (findsLabels_member _ ref).bind fun _ => ?_
      dsimp only
      split
      · split
        · exact .throw rfl
        · split
          · exact .throw rfl
          · exact .pure _
      · exact .pure _
  | jump op target =>
      exact (Encoder.FindsLabels.lift (findsLabels_shortDistance (h target (List.mem_singleton_self _)))).bind
        fun _ => .pure _
  | tableSwitch low high fallback targets =>
      have hfallback := h fallback (List.mem_append_right _ (List.mem_singleton_self _))
      refine (Encoder.FindsLabels.lift (findsLabels_longDistance hfallback)).bind fun _ => ?_
      refine (Encoder.FindsLabels.mapM fun target htarget => ?_).bind fun _ => .pure _
      exact .lift (findsLabels_longDistance (h target (List.mem_append_left _ htarget)))
  | lookupSwitch fallback keys targets =>
      have hfallback := h fallback (List.mem_append_right _ (List.mem_singleton_self _))
      refine (Encoder.FindsLabels.lift (findsLabels_longDistance hfallback)).bind fun _ => ?_
      refine (Encoder.FindsLabels.mapM ?_).bind fun _ => .pure _
      rintro ⟨key, target⟩ hpair
      have htarget := h target (List.mem_append_left _ (List.of_mem_zip hpair).2)
      exact (Encoder.FindsLabels.lift (findsLabels_longDistance htarget)).bind fun _ => .pure _
  | multiNewArray descriptor dims => exact (findsLabels_classRef descriptor).bind fun _ => .pure _
  | _ => exact .pure _

theorem findsLabels_instrs (h : ∀ p ∈ placed, ∀ l ∈ p.1.targets, ∃ o, offsetOf offsets l = .ok o) :
    Encoder.FindsLabels (placed.zipIdx.mapM fun ((instr, offset), index) =>
      fun b => (encodeInstr offsets offset instr b).mapError (.instr index instr)) := by
  refine .mapM fun p hp => .mapError (fun _ => rfl) (findsLabels_instr ?_)
  exact h p.1 (List.fst_mem_of_mem_zipIdx hp)

theorem findsLabels_try {block : TryBlock}
    (h : ∀ l, l = block.start ∨ l = block.stop ∨ l = block.handler → ∃ o, offsetOf offsets l = .ok o) :
    Encoder.FindsLabels (encodeTry offsets block) := by
  refine (Encoder.FindsLabels.lift (findsLabels_offsetOf (h _ (.inl rfl)))).bind fun start => ?_
  refine (Encoder.FindsLabels.lift (findsLabels_offsetOf (h _ (.inr (.inl rfl))))).bind fun stop => ?_
  dsimp only
  split
  · exact .pure _
  · refine (Encoder.FindsLabels.lift (findsLabels_offsetOf (h _ (.inr (.inr rfl))))).bind fun handler => ?_
    split
    · exact (findsLabels_classRef _).bind fun _ => .pure _
    · exact .pure _

/-- The body of a method that places the labels it uses. -/
theorem findsLabels_body {m : MethodDecl} (h : m.LabelsClosed) : Encoder.FindsLabels (encode m) := by
  refine (findsLabels_layout m.code).bind' ?_
  rintro b ⟨placed, length⟩ b' hlayout
  have hoffset : ∀ l ∈ m.usedLabels, ∃ o, offsetOf (labelOffsets placed) l = .ok o := by
    intro l hl
    refine exists_offset ?_
    rw [map_fst_layout hlayout]
    exact mem_labelsIn.1 (h.placed hl)
  dsimp only
  split
  · exact .throw rfl
  · have hinstrs : ∀ p ∈ placed, ∀ l ∈ p.1.targets, ∃ o, offsetOf (labelOffsets placed) l = .ok o := by
      intro p hp l hl
      have hinstr : p.1 ∈ m.code := map_fst_layout hlayout ▸ List.mem_map_of_mem hp
      exact hoffset l (MethodDecl.mem_usedLabels.2 (.inl ⟨p.1, hinstr, hl⟩))
    have htries : Encoder.FindsLabels (m.tries.mapM (encodeTry (labelOffsets placed))) :=
      .mapM fun block hblock => findsLabels_try fun l hl =>
        hoffset l (MethodDecl.mem_usedLabels.2 (.inr ⟨block, hblock, hl⟩))
    refine (findsLabels_instrs hinstrs).bind fun _ => htries.bind fun _ => ?_
    refine (Encoder.FindsLabels.lift (findsLabels_countBytes _ _)).bind fun _ => ?_
    split
    · exact .pure _
    · refine (findsLabels_utf8 _).bind fun _ => ?_
      refine (Encoder.FindsLabels.lift (findsLabels_countBytes _ _)).bind fun _ => ?_
      exact (Encoder.FindsLabels.lift (findsLabels_attributeBytes _ _)).bind fun _ => .pure _

end Code

theorem findsLabels_field (f : FieldDecl) : Encoder.FindsLabels (encodeField f) := by
  refine (findsLabels_utf8 f.name).bind fun _ => (findsLabels_utf8 f.descriptor).bind fun _ => ?_
  split
  · exact .pure _
  · exact .throw rfl
  · refine (findsLabels_utf8 _).bind fun _ => (findsLabels_loadable _).bind fun _ => ?_
    exact (Encoder.FindsLabels.lift (findsLabels_attributeBytes _ _)).bind fun _ => .pure _

theorem findsLabels_classRefs (names : List String) :
    Encoder.FindsLabels (names.mapM fun name => return u16Bytes (← classRef name)) :=
  .mapM fun name _ => (findsLabels_classRef name).bind fun _ => .pure _

theorem findsLabels_method {m : MethodDecl} (h : m.LabelsClosed) : Encoder.FindsLabels (encodeMethod m) := by
  have hcode : Encoder.FindsLabels (encodeCodePart m) := by
    unfold encodeCodePart
    split
    · refine (findsLabels_utf8 _).bind fun _ => (Code.findsLabels_body h).bind fun _ => ?_
      exact (Encoder.FindsLabels.lift (findsLabels_attributeBytes _ _)).bind fun _ => .pure _
    · exact .pure _
  have hthrows : Encoder.FindsLabels (encodeThrowsPart m) := by
    unfold encodeThrowsPart
    split
    · exact .pure _
    · refine (findsLabels_utf8 _).bind fun _ => ?_
      refine (Encoder.FindsLabels.lift (findsLabels_countBytes _ _)).bind fun _ => ?_
      refine (findsLabels_classRefs m.throws).bind fun _ => ?_
      exact (Encoder.FindsLabels.lift (findsLabels_attributeBytes _ _)).bind fun _ => .pure _
  rw [encodeMethod_eq]
  refine (findsLabels_utf8 m.name).bind fun _ => (findsLabels_utf8 m.descriptor).bind fun _ => ?_
  exact hcode.bind fun _ => hthrows.bind fun _ => .pure _

/-- A class whose methods place the labels that they use is never refused for a label without a place. -/
theorem findsLabels_class {c : ClassDecl} (h : ∀ m ∈ c.methods, m.LabelsClosed) : FindsLabels (encodeClass c) := by
  have hcount : ∀ what count, Encoder.FindsLabels (liftM (countBytes what count)) := fun what count =>
    .lift (findsLabels_countBytes what count)
  have hfields : Encoder.FindsLabels (c.fields.mapM fun f => fun b => (encodeField f b).mapError (.field f.name)) :=
    .mapM fun f _ => .mapError (fun _ => rfl) (findsLabels_field f)
  have hmethods : Encoder.FindsLabels
      (c.methods.mapM fun m => fun b => (encodeMethod m b).mapError (.method m.name m.descriptor)) :=
    .mapM fun m hm => .mapError (fun _ => rfl) (findsLabels_method (h m hm))
  have hbody : Encoder.FindsLabels (encodeBody c) := by
    rw [encodeBody_eq]
    refine (findsLabels_classRef c.name).bind fun _ => ?_
    refine Encoder.FindsLabels.bind ?_ fun _ => ?_
    · cases c.superName with
      | none => exact .pure 0
      | some name => exact findsLabels_classRef name
    refine (hcount _ _).bind fun _ => (findsLabels_classRefs c.interfaces).bind fun _ => ?_
    refine (hcount _ _).bind fun _ => hfields.bind fun _ => (hcount _ _).bind fun _ => hmethods.bind fun _ => ?_
    refine Encoder.FindsLabels.bind ?_ fun _ => .pure _
    cases c.sourceFile with
    | none => exact .pure _
    | some file =>
        refine (findsLabels_utf8 _).bind fun _ => (findsLabels_utf8 file).bind fun _ => ?_
        exact (Encoder.FindsLabels.lift (findsLabels_attributeBytes _ _)).bind fun _ => .pure _
  refine (hbody {}).andThen fun p _ => ?_
  exact (findsLabels_poolEncode p.2).andThen fun _ _ => .ok _

end Unscramble.ClassFile
