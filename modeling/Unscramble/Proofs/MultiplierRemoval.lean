/-
Removing multipliers undoes every encoding.  In a program of methods that store to encoded fields and read them,
whatever the encoders are, the decoders are found and cancelled, and the folding of constants takes out all
multiplications, so that what is stored to a field is what is read from it.
-/
import Unscramble.Multiplier.Remove
import Unscramble.Proofs.EncodedFields
import Unscramble.Proofs.Finding
import Unscramble.Proofs.FoldSimulation
import Unscramble.Proofs.MethodPlaces
import Unscramble.Proofs.Traversals

namespace Unscramble

/-- The method without the constants that it loads and without its multiplications. -/
def MethodDecl.withoutProducts (m : MethodDecl) : MethodDecl :=
  { m with code := m.code.filter fun instr => (Expr.constant? instr).isNone && !Expr.isProduct instr }

/-- The program without the constants and multiplications of its methods. -/
def ClassPool.withoutProducts (pool : ClassPool) : ClassPool :=
  pool.mapMethods fun _ => MethodDecl.withoutProducts

namespace Logged

variable {ε α β : Type}

/-- A run of steps that report nothing and cannot fail. -/
theorem foldlM_eq_pure {f : β → α → Logged ε β} {g : β → α → β} {items : List α}
    (h : ∀ a ∈ items, ∀ b, f b a = Pure.pure (g b a)) (b : β) : items.foldlM f b = Pure.pure (items.foldl g b) := by
  induction items generalizing b with
  | nil => rfl
  | cons a rest ih =>
      obtain ⟨hfirst, hrest⟩ := List.forall_mem_cons.1 h
      rw [List.foldlM_cons, hfirst, pure_bind, ih hrest, List.foldl_cons]

end Logged

namespace Multiplier

open Analysis

section Folding

open Fold

variable {m : MethodDecl} {first : Instr} {tail : List Instr} {n inverse : Number} {origin : Origin}
  {locals : List Expr} {index : Nat}

/-- A variable times a number. -/
def scaledOnce (origin : Origin) (n : Number) : Expr :=
  .mul ⟨n.kind.size, [2]⟩ (.var origin) (.const ⟨n.kind.size, [1]⟩ n)

/-- The product with another number. -/
def scaledTwice (origin : Origin) (n n' : Number) : Expr :=
  .mul ⟨n'.kind.size, [4]⟩ (scaledOnce origin n) (.const ⟨n'.kind.size, [3]⟩ n')

/-- The changes that remove the instructions of both multiplications. -/
def removal : Edits :=
  (((∅ : Edits).insert 4 none |>.insert 3 none).insert 2 none).insert 1 none

/-- Where the product of both numbers is 1, nothing is left of it. -/
theorem scale_scaledTwice {unit : Number} (hone : ((unit.mul inverse).mul n).isOne = true) :
    scale (scaledTwice origin n inverse) unit ∅ = .ok removal := by
  simp [scaledTwice, scaledOnce, scale, scale.scaleVar, dropFactor, edit, makerOf, Expr.maker?, Origin.maker?,
    Expr.origin, Expr.isVar, hone, bind, Except.bind, removal]

theorem foldProduct_scaledTwice {code : Array Instr} (hinverse : n.inverse? = some inverse)
    (hcode : code[4]? = some (.simple inverse.mulOp)) :
    foldProduct code ∅ (scaledTwice origin n inverse) = .ok removal := by
  have hmaker : makerOf (scaledTwice origin n inverse) = .ok 4 := rfl
  rcases Number.inverse?_cases hinverse with ⟨v, w, rfl, rfl, hmul⟩ | ⟨v, w, rfl, rfl, hmul⟩
  · have hone : (((Number.int 1).mul (.int w)).mul (.int v)).isOne = true := by
      simp [Number.mul, Number.isOne, Number.toInt64, Int32.mul_comm w, hmul]
    refine bind_eq_ok.2 ⟨4, hmaker, ?_⟩
    rw [hcode]
    exact scale_scaledTwice hone
  · have hone : (((Number.long 1).mul (.long w)).mul (.long v)).isOne = true := by
      simp [Number.mul, Number.isOne, Number.toInt64, Int64.mul_comm w, hmul]
    refine bind_eq_ok.2 ⟨4, hmaker, ?_⟩
    rw [hcode]
    exact scale_scaledTwice hone

theorem getElem?_removal (index : Nat) :
    removal[index]? = if 1 ≤ index ∧ index ≤ 4 then some none else none := by
  simp only [removal, Std.HashMap.getElem?_insert, beq_iff_eq, Std.HashMap.getElem?_empty]
  grind

/-- Instructions that keep their form from some index on. -/
theorem filterMap_zipIdx_eq {f : Instr × Nat → Option Instr} {start : Nat}
    (h : ∀ placed, start ≤ placed.2 → f placed = some placed.1) (code : List Instr) :
    (code.zipIdx start).filterMap f = code := by
  have hkept : (code.zipIdx start).filterMap f = (code.zipIdx start).filterMap (some ∘ Prod.fst) :=
    List.filterMap_congr fun placed hplaced => h placed (List.le_snd_of_mem_zipIdx hplaced)
  rw [hkept, List.filterMap_eq_map, List.zipIdx_map_fst]

/-- Of code with two multiplications behind its first instruction they are removed. -/
theorem applyEdits_removal (first : Instr) (n n' : Number) (tail : List Instr) :
    applyEdits removal (first :: (Cancel.times n ++ (Cancel.times n' ++ tail))) = first :: tail := by
  rw [times_eq, times_eq, applyEdits]
  simp only [getElem?_removal, List.cons_append, List.nil_append, List.zipIdx_cons, zero_add, Nat.reduceAdd,
    Nat.le_zero_eq, one_ne_zero, Nat.zero_le, and_true, ↓reduceIte, Option.some.injEq, List.filterMap_cons_some,
    Std.le_refl, Nat.reduceLeDiff, and_self, List.filterMap_cons_none, List.cons.injEq, true_and]
  refine filterMap_zipIdx_eq (fun placed hplaced => ?_) tail
  rw [if_neg (by omega)]

theorem push_ofNumber (n : Number) (index : Nat) :
    Domain.exprs.push index (.ldc (.ofNumber n)) n.kind = .const ⟨n.kind.size, [index]⟩ n := by
  cases n <;> rfl

theorem ne_const_of_isConst_eq_false {e : Expr} (h : e.isConst = false) (o : Origin) : e ≠ .const o n := by
  rintro rfl
  cases h

theorem isProduct_mulOp (n : Number) : Expr.isProduct (.simple n.mulOp) = true := by
  cases n <;> rfl

theorem binary_mulOp (n : Number) {left : Expr} (hleft : left.isConst = false) (index : Nat) (o : Origin)
    (kind : Kind) : Domain.exprs.binary index (.simple n.mulOp) left (.const o n) kind =
      .mul ⟨kind.size, [index]⟩ left (.const o n) := by
  show Expr.combine _ _ _ _ = _
  simp [Expr.combine, ne_const_of_isConst_eq_false hleft, isProduct_mulOp, Expr.isConst]

theorem straight_product (n : Number) {left : Expr} (hleft : left.isConst = false) {later : List (Event Expr)}
    (h : Straight Domain.exprs tail (index + 2)
      ⟨locals, [.mul ⟨n.kind.size, [index + 1]⟩ left (.const ⟨n.kind.size, [index]⟩ n)]⟩ later) :
    Straight Domain.exprs (Cancel.times n ++ tail) index ⟨locals, [left]⟩
      (.step index ⟨locals, [left]⟩ :: .edge index (index + 1) ::
        .step (index + 1) ⟨locals, [.const ⟨n.kind.size, [index]⟩ n, left]⟩ ::
        .edge (index + 1) (index + 2) :: later) := by
  rw [← binary_mulOp n hleft, ← push_ofNumber] at h
  rw [← push_ofNumber]
  exact straight_times n h

/-- The events between a variable on the stack and its product with two numbers. -/
def scalingEvents (locals : List Expr) (origin : Origin) (n n' : Number) : List (Event Expr) :=
  [.step 1 ⟨locals, [.var origin]⟩, .edge 1 2,
    .step 2 ⟨locals, [.const ⟨n.kind.size, [1]⟩ n, .var origin]⟩, .edge 2 3,
    .step 3 ⟨locals, [scaledOnce origin n]⟩, .edge 3 4,
    .step 4 ⟨locals, [.const ⟨n'.kind.size, [3]⟩ n', scaledOnce origin n]⟩, .edge 4 5]

theorem straight_scaling (n n' : Number) {later : List (Event Expr)}
    (h : Straight Domain.exprs tail 5 ⟨locals, [scaledTwice origin n n']⟩ later) :
    Straight Domain.exprs (Cancel.times n ++ (Cancel.times n' ++ tail)) 1 ⟨locals, [.var origin]⟩
      (scalingEvents locals origin n n' ++ later) :=
  straight_product n rfl (straight_product n' rfl h)

theorem afterEvent_short {code : Array Instr} {products : Products} {frame : Frame Expr} (h : frame.stack.length ≤ 1) :
    Products.afterEvent code products (.step index frame) = products := by
  simp only [Products.afterEvent]
  split
  · next hstack =>
      rw [hstack] at h
      simp at h
  · rfl

theorem afterEvent_product {code : Array Instr} {products : Products} {left : Expr} {o : Origin}
    (hcode : code[index]? = some (.simple n.mulOp)) (hleft : left.isConst = false) :
    Products.afterEvent code products (.step index ⟨locals, [.const o n, left]⟩) =
      products.record index (.mul ⟨n.kind.size, [index]⟩ left (.const o n)) := by
  have hkind : (if (Instr.simple n.mulOp).hasOpcode Opcode.lmul then Kind.long else Kind.int) = n.kind := by
    cases n <;> rfl
  simp only [Products.afterEvent, hcode, hkind]
  simp [isProduct_mulOp, ne_const_of_isConst_eq_false hleft, Expr.isConst]

/-- The product with both numbers is the only outermost one. -/
theorem constantProducts_scaling {later : List (Event Expr)} {frames : Array (Option (Frame Expr))}
    (hcode : m.code = first :: (Cancel.times n ++ (Cancel.times inverse ++ tail)))
    (hanalysis : analyze Domain.exprs m =
      ⟨.step 0 ⟨locals, []⟩ :: .edge 0 1 :: (scalingEvents locals origin n inverse ++ later), .ok frames⟩)
    (hlater : ∀ products, later.foldl (Products.afterEvent m.code.toArray) products = products) :
    (analyze Domain.exprs m).constantProducts m.code = [scaledTwice origin n inverse] := by
  have hfirst : m.code.toArray[2]? = some (.simple n.mulOp) := by simp [hcode, times_eq]
  have hsecond : m.code.toArray[4]? = some (.simple inverse.mulOp) := by simp [hcode, times_eq]
  have hproducts : (analyze Domain.exprs m).trace.foldl (Products.afterEvent m.code.toArray) [] =
      [(2, scaledOnce origin n), (4, scaledTwice origin n inverse)] := by
    have hedge (source target : Nat) (products : Products) :
        products.afterEvent m.code.toArray (.edge source target) = products := rfl
    have hshort (index : Nat) (stack : List Expr) (products : Products) (h : stack.length ≤ 1) :
        products.afterEvent m.code.toArray (.step index ⟨locals, stack⟩) = products := afterEvent_short h
    have hinner : Products.afterEvent m.code.toArray []
        (.step 2 ⟨locals, [.const ⟨n.kind.size, [1]⟩ n, .var origin]⟩) = [(2, scaledOnce origin n)] :=
      afterEvent_product hfirst rfl
    have houter : Products.afterEvent m.code.toArray [(2, scaledOnce origin n)]
        (.step 4 ⟨locals, [.const ⟨inverse.kind.size, [3]⟩ inverse, scaledOnce origin n]⟩) =
          [(2, scaledOnce origin n), (4, scaledTwice origin n inverse)] :=
      afterEvent_product hsecond rfl
    rw [hanalysis]
    simp only [scalingEvents, List.cons_append, List.nil_append, List.foldl_cons, hedge, hinner, houter, hlater,
      hshort 0 [] _ (Nat.zero_le 1), hshort 1 [.var origin] _ (Nat.le_refl 1),
      hshort 3 [scaledOnce origin n] _ (Nat.le_refl 1)]
  rw [Analysis.constantProducts, hproducts]
  simp [Products.outermost, Products.outermost.keep, scaledTwice, scaledOnce, Expr.factors?, Expr.isConst]

/-- A multiplication with a number and then with its inverse, in code without branches, is folded away. -/
theorem fold_scaled {later : List (Event Expr)}
    (hcode : m.code = first :: (Cancel.times n ++ (Cancel.times inverse ++ tail)))
    (hanalyze : ∀ {events}, Straight Domain.exprs (Cancel.times n ++ (Cancel.times inverse ++ tail)) 1
        ⟨locals, [.var origin]⟩ events →
      ∃ frames, analyze Domain.exprs m = ⟨.step 0 ⟨locals, []⟩ :: .edge 0 1 :: events, .ok frames⟩)
    (htail : Straight Domain.exprs tail 5 ⟨locals, [scaledTwice origin n inverse]⟩ later)
    (hlater : ∀ products, later.foldl (Products.afterEvent m.code.toArray) products = products)
    (hinverse : n.inverse? = some inverse) : fold m = pure ({ m with code := first :: tail }, 1) := by
  obtain ⟨frames, hanalysis⟩ := hanalyze (straight_scaling n inverse htail)
  have hproducts := constantProducts_scaling hcode hanalysis hlater
  have hlast : m.code.toArray[4]? = some (.simple inverse.mulOp) := by simp [hcode, times_eq]
  have hedits : ((analyze Domain.exprs m).constantProducts m.code).foldlM (foldProduct m.code.toArray) ∅ =
      .ok removal := by
    rw [hproducts, List.foldlM_cons, foldProduct_scaledTwice hinverse hlast]
    rfl
  have hok : (analyze Domain.exprs m).result.isOk := by
    rw [hanalysis]
    rfl
  rw [fold_of_edits hok hedits, hproducts, hcode, applyEdits_removal]
  rfl

/-- What is encoded and decoded again before the store is stored as it is. -/
theorem fold_storing (owner : String) (e : EncodedField) :
    fold (e.storing owner (Cancel.times e.encoder ++ Cancel.times e.decoder)) = pure (e.plainSetter owner, 1) := by
  obtain ⟨locals, v, hanalyze⟩ :=
    e.analyze_storing owner Domain.exprs (Cancel.times e.encoder ++ Cancel.times e.decoder)
  rw [List.append_assoc] at hanalyze
  refine fold_scaled ?_ hanalyze (e.straight_put owner 5 locals _) (fun products => ?_) e.inverse
  · rw [EncodedField.storing, List.append_assoc]
    rfl
  · simp only [List.foldl_cons, List.foldl_nil]
    refine (afterEvent_short ?_).trans (afterEvent_short (Nat.le_refl 1))
    exact Nat.zero_le 1

/-- What is encoded and decoded again after the read is returned as it was read. -/
theorem fold_reading (owner : String) (e : EncodedField) :
    fold (e.reading owner (Cancel.times e.encoder ++ Cancel.times e.decoder)) = pure (e.plainGetter owner, 1) := by
  obtain ⟨locals, hanalyze⟩ :=
    e.analyze_reading owner Domain.exprs (Cancel.times e.encoder ++ Cancel.times e.decoder)
  rw [List.append_assoc] at hanalyze
  refine fold_scaled ?_ hanalyze (e.straight_return 5 locals _) (fun products => ?_) e.inverse
  · rw [EncodedField.reading, List.append_assoc]
    rfl
  · exact afterEvent_short (Nat.le_refl 1)

end Folding

section Methods

variable {decoders : Decoders} {m plain short : MethodDecl} {cancelled folded : Nat}

theorem removeFrom_eq (hcode : m.hasCode = true) (hcancel : cancel decoders m = .ok (plain, cancelled))
    (hfold : fold plain = pure (short, folded)) (c : ClassDecl) :
    removeFrom decoders c m = pure (short, ⟨cancelled, folded⟩) := by
  rw [removeFrom, hcode, hcancel]
  simp only [Logged.ofExcept, pure_bind, hfold]
  rfl

variable {owner : String} {e : EncodedField}

/-- Of the method that stores to a field only the load and the store are left. -/
theorem removeFrom_setter (h : decoders.lookup (e.ref owner).fieldKey = some e.decoder) (c : ClassDecl) :
    removeFrom decoders c (e.setter owner) = pure (e.plainSetter owner, ⟨1, 1⟩) :=
  removeFrom_eq rfl (e.cancel_setter owner h) (fold_storing owner e) c

/-- Of the method that reads a field only the read is left. -/
theorem removeFrom_getter (h : decoders.lookup (e.ref owner).fieldKey = some e.decoder) (c : ClassDecl) :
    removeFrom decoders c (e.getter owner) = pure (e.plainGetter owner, ⟨1, 1⟩) :=
  removeFrom_eq rfl (e.cancel_getter owner h) (fold_reading owner e) c

end Methods

section Finding

variable {ε : Type} {pool : ClassPool} {owner : String} {fields : List EncodedField} {system : System}
  {m : MethodDecl} {e : EncodedField}

/-- The decoder of a field; of fields that are not in the list any multiplier. -/
def decoderOf (owner : String) (fields : List EncodedField) (field : String) : Number :=
  match fields.find? fun e => (e.ref owner).fieldKey == field with
  | some e => e.decoder
  | none => .int 3

theorem decoderOf_field (hnames : (fields.map EncodedField.name).Nodup) (he : e ∈ fields) :
    decoderOf owner fields (e.ref owner).fieldKey = e.decoder := by
  rw [decoderOf]
  cases hfound : fields.find? fun other => (other.ref owner).fieldKey == (e.ref owner).fieldKey with
  | none => exact absurd (List.find?_eq_none.1 hfound e he) (by simp)
  | some other =>
      have hkey := List.find?_some hfound
      obtain rfl := List.inj_on_of_nodup_map hnames (List.mem_of_find?_eq_some hfound) he
        (EncodedField.fieldKey_inj owner (eq_of_beq hkey))
      rfl

theorem isMultiplier_decoderOf (owner : String) (fields : List EncodedField) (field : String) :
    (decoderOf owner fields field).isMultiplier = true := by
  rw [decoderOf]
  split
  · next e _ => exact e.isMultiplier_decoder
  · exact Number.isMultiplier_iff.2 ⟨.int (-1431655765), Number.int_inverse?_iff.2 (by decide), by decide⟩

/-- The method is one of those of a field. -/
def IsAccessor (owner : String) (fields : List EncodedField) (m : MethodDecl) : Prop :=
  ∃ e ∈ fields, m = e.setter owner ∨ m = e.getter owner

/-- There are only candidates, and they are encoders and decoders of the fields. -/
structure OnlyCandidates (owner : String) (fields : List EncodedField) (s : System) : Prop where
  candidates : ∀ field c, s.pending.Has field c →
    ∃ e ∈ fields, field = (e.ref owner).fieldKey ∧ (c = .encoding e.encoder ∨ c = .decoding e.decoder)
  assignments : s.assignments = []
  decoders : s.decoders = []

theorem OnlyCandidates.observe {c : Candidate} (h : OnlyCandidates owner fields system) (he : e ∈ fields)
    (hc : c = .encoding e.encoder ∨ c = .decoding e.decoder) :
    OnlyCandidates owner fields (system.observe (e.ref owner).fieldKey c) where
  candidates field d hd := by
    rcases Pending.has_push.1 hd with hd | ⟨rfl, rfl⟩
    · exact h.candidates field d hd
    · exact ⟨e, he, rfl, hc⟩
  assignments := h.assignments
  decoders := h.decoders

theorem OnlyCandidates.consistent (h : OnlyCandidates owner fields system)
    (hnames : (fields.map EncodedField.name).Nodup) : system.Consistent (decoderOf owner fields) where
  multiplier := isMultiplier_decoderOf owner fields
  candidates field c hc := by
    obtain ⟨e, he, rfl, rfl | rfl⟩ := h.candidates field c hc
    · rw [decoderOf_field hnames he]
      exact Number.inverse_eq_ok.2 e.inverse
    · rw [decoderOf_field hnames he]
      rfl
  assignments := by simp [h.assignments]
  decoders := by simp [h.decoders]

theorem IsAccessor.observed (h : IsAccessor owner fields m) (system : System) :
    (observeMethod m system).2 = none := by
  obtain ⟨e, -, rfl | rfl⟩ := h
  · rw [e.observeMethod_setter]
  · rw [e.observeMethod_getter]

/-- What the scan of a method adds to a system. -/
theorem OnlyCandidates.next (h : OnlyCandidates owner fields system) (hm : IsAccessor owner fields m) :
    OnlyCandidates owner fields (observeMethod m system).1 ∧
      ∀ field c, system.pending.Has field c → (observeMethod m system).1.pending.Has field c := by
  obtain ⟨e, he, rfl | rfl⟩ := hm
  · rw [e.observeMethod_setter]
    exact ⟨h.observe he (.inl rfl), fun field c hc => Pending.has_push.2 (.inl hc)⟩
  · rw [e.observeMethod_getter]
    exact ⟨h.observe he (.inr rfl), fun field c hc => Pending.has_push.2 (.inl hc)⟩

/-- What is observed in some methods, one after another. -/
def observeAll (methods : List (ClassDecl × MethodDecl)) (system : System) : System :=
  methods.foldl (fun system placed => (observeMethod placed.2 system).1) system

/-- Only candidates are observed, and for every field whose setter is among the methods there is one. -/
theorem OnlyCandidates.all {methods : List (ClassDecl × MethodDecl)} (h : OnlyCandidates owner fields system)
    (hmethods : ∀ placed ∈ methods, IsAccessor owner fields placed.2) :
    OnlyCandidates owner fields (observeAll methods system) ∧
      (∀ field c, system.pending.Has field c → (observeAll methods system).pending.Has field c) ∧
      ∀ e : EncodedField, e.setter owner ∈ methods.map Prod.snd →
        (observeAll methods system).pending.Has (e.ref owner).fieldKey (.encoding e.encoder) := by
  induction methods generalizing system with
  | nil => exact ⟨h, fun _ _ hc => hc, nofun⟩
  | cons first rest ih =>
      obtain ⟨hfirst, hrest⟩ := List.forall_mem_cons.1 hmethods
      obtain ⟨hnext, hkept⟩ := h.next hfirst
      obtain ⟨hlast, hkept', hsetters⟩ := ih hnext hrest
      refine ⟨hlast, fun field c hc => hkept' field c (hkept field c hc), fun e he => ?_⟩
      rcases List.mem_cons.1 he with hfirst | he
      · refine hkept' _ _ ?_
        rw [← hfirst, e.observeMethod_setter]
        exact Pending.has_push.2 (.inr ⟨rfl, rfl⟩)
      · exact hsetters e he

/-- Where no analysis stops early, the scan of a program reports nothing. -/
theorem observePool_eq (h : ∀ placed ∈ pool.methods, ∀ system, (observeMethod placed.2 system).2 = none) :
    (observePool pool : Logged ε System) = pure (observeAll pool.methods {}) := by
  refine Logged.foldlM_eq_pure (g := fun system (placed : ClassDecl × MethodDecl) => (observeMethod placed.2 system).1)
    (fun placed hplaced system => ?_) {}
  simp only [h placed hplaced system]

/-- The decoders of all fields are found. -/
theorem find_yields (hnames : (fields.map EncodedField.name).Nodup)
    (hmethods : ∀ placed ∈ pool.methods, IsAccessor owner fields placed.2)
    (hsetters : ∀ e ∈ fields, e.setter owner ∈ pool.methods.map Prod.snd) :
    ∃ decoders, (find pool).Yields decoders ∧
      ∀ e ∈ fields, decoders.lookup (e.ref owner).fieldKey = some e.decoder := by
  have hstart : OnlyCandidates owner fields {} := ⟨fun _ _ ⟨_, hmem, _⟩ => (List.not_mem_nil hmem).elim, rfl, rfl⟩
  obtain ⟨honly, -, hcandidates⟩ := hstart.all hmethods
  obtain ⟨decoders, hsolve, hfound, -⟩ := System.solve_exact (honly.consistent hnames) honly.decoders
  refine ⟨decoders, ?_, fun e he => ?_⟩
  · have hscan := observePool_eq (ε := NotInvertible) fun placed hplaced => (hmethods placed hplaced).observed
    exact yields_find (hscan ▸ .pure _) hsolve
  · rw [hfound _ (.candidate (hcandidates e (hsetters e he))), decoderOf_field hnames he]

end Finding

section Removal

open Machine

variable {σ : Type} {w : World σ} {owner : String} {fields : List EncodedField} {pool : ClassPool}
  {locals : UInt16 → Value} {memory : Memory σ} {v : Value}

theorem setter_withoutProducts (owner : String) (e : EncodedField) :
    (e.setter owner).withoutProducts = e.plainSetter owner := by
  rw [MethodDecl.withoutProducts, EncodedField.setter, EncodedField.plainSetter, EncodedField.storing,
    EncodedField.storing, times_eq]
  cases e.encoder <;> rfl

theorem getter_withoutProducts (owner : String) (e : EncodedField) :
    (e.getter owner).withoutProducts = e.plainGetter owner := by
  rw [MethodDecl.withoutProducts, EncodedField.getter, EncodedField.plainGetter, EncodedField.reading,
    EncodedField.reading, times_eq]
  cases e.decoder <;> cases e.encoder <;> rfl

section Steps

variable {m : MethodDecl} {instr : Instr} {pc : Nat} {s s' : Store σ} {result : Option Value}

theorem step_of_next (hinstr : m.code[pc]? = some instr) (h : exec w instr s = .next s') :
    step w m (.running pc s) = .running (pc + 1) s' := by
  simp only [step, hinstr, h, proceed]

theorem step_of_leave (hinstr : m.code[pc]? = some instr) (h : exec w instr s = .leave result memory) :
    step w m (.running pc s) = .returned result memory := by
  simp only [step, hinstr, h, proceed]

end Steps

/-- The method stores the value in its slot. -/
theorem plainSetter_ends (e : EncodedField) (hvalue : locals e.slot = v) (hkind : v.kind = e.encoder.kind) :
    Fold.Ends w (e.plainSetter owner) (.running 0 ⟨locals, [], memory⟩)
      (.returned none (memory.set ⟨none, e.ref owner⟩ v)) := by
  have hload : exec w (.var e.encoder.loadOp e.slot) ⟨locals, [], memory⟩ = .next ⟨locals, [v], memory⟩ := by
    rw [exec, EncodedField.ofInstr_loadOp]
    subst hvalue
    have hlocal : (Instr.var e.encoder.loadOp e.slot).localKind? = some (locals e.slot).kind := by
      rw [hkind]
      cases e.encoder <;> rfl
    exact if_pos hlocal
  have hput : exec w (.field Opcode.putStatic (e.ref owner)) ⟨locals, [v], memory⟩ =
      .next ⟨locals, [], memory.set ⟨none, e.ref owner⟩ v⟩ :=
    exec_putStatic ((e.kind?_ref owner).trans (congrArg some hkind.symm))
  refine ⟨rfl, 3, ?_⟩
  have hfirst : step w (e.plainSetter owner) (.running 0 ⟨locals, [], memory⟩) = .running 1 ⟨locals, [v], memory⟩ :=
    step_of_next rfl hload
  have hsecond : step w (e.plainSetter owner) (.running 1 ⟨locals, [v], memory⟩) =
      .running 2 ⟨locals, [], memory.set ⟨none, e.ref owner⟩ v⟩ :=
    step_of_next rfl hput
  show step w _ (step w _ (step w _ _)) = _
  rw [hfirst, hsecond]
  rfl

/-- The method returns what the field holds. -/
theorem plainGetter_ends (e : EncodedField) (hvalue : memory.fields ⟨none, e.ref owner⟩ = v)
    (hkind : v.kind = e.encoder.kind) :
    Fold.Ends w (e.plainGetter owner) (.running 0 ⟨locals, [], memory⟩) (.returned (some v) memory) := by
  have hread : exec w (.field Opcode.getStatic (e.ref owner)) ⟨locals, [], memory⟩ = .next ⟨locals, [v], memory⟩ := by
    rw [exec_getStatic (e.kind?_ref owner), hvalue, if_pos hkind]
  have hreturn : exec w (.simple e.encoder.returnOp) ⟨locals, [v], memory⟩ = .leave (some v) memory := by
    rw [exec, EncodedField.ofInstr_returnOp]
    rfl
  have hfirst : step w (e.plainGetter owner) (.running 0 ⟨locals, [], memory⟩) = .running 1 ⟨locals, [v], memory⟩ :=
    step_of_next rfl hread
  have hsecond : step w (e.plainGetter owner) (.running 1 ⟨locals, [v], memory⟩) = .returned (some v) memory :=
    step_of_leave rfl hreturn
  refine ⟨rfl, 2, ?_⟩
  show step w _ (step w _ _) = _
  rw [hfirst, hsecond]

theorem total_ones {α : Type} (items : List α) : total (items.map fun _ => 1) = items.length := by
  rw [total_const, Nat.mul_one]

/-- In a program of methods that store to encoded fields and read them, the removal of multipliers changes every one of
them and leaves in each only the access to the field.  A value that is stored afterwards is the value that is read. -/
theorem removeMultipliers_encoded (hnames : (fields.map EncodedField.name).Nodup)
    (hmethods : (pool.methods.map Prod.snd).Perm (fields.flatMap fun e => [e.setter owner, e.getter owner])) :
    ∃ lines, pool.removeMultipliers.run = (lines, .ok (pool.withoutProducts, 2 * fields.length)) ∧
      ∀ e ∈ fields,
        (∀ p, pool.methodAt? p = some (e.setter owner) →
          pool.withoutProducts.methodAt? p = some (e.plainSetter owner)) ∧
        (∀ p, pool.methodAt? p = some (e.getter owner) →
          pool.withoutProducts.methodAt? p = some (e.plainGetter owner)) ∧
        ∀ {σ : Type} (w : World σ) (locals locals' : UInt16 → Value) (memory : Memory σ) (v : Value),
          locals e.slot = v → v.kind = e.encoder.kind →
            Fold.Ends w (e.plainSetter owner) (.running 0 ⟨locals, [], memory⟩)
              (.returned none (memory.set ⟨none, e.ref owner⟩ v)) ∧
            Fold.Ends w (e.plainGetter owner) (.running 0 ⟨locals', [], memory.set ⟨none, e.ref owner⟩ v⟩)
              (.returned (some v) (memory.set ⟨none, e.ref owner⟩ v)) := by
  -- The order of the methods plays no part: only that every method belongs to a field, and every field has its setter.
  have haccessors : ∀ placed ∈ pool.methods, IsAccessor owner fields placed.2 := by
    intro placed hplaced
    obtain ⟨e, he, hmem⟩ := List.mem_flatMap.1 (hmethods.mem_iff.1 (List.mem_map_of_mem hplaced))
    exact ⟨e, he, by simpa using hmem⟩
  have hsetters : ∀ e ∈ fields, e.setter owner ∈ pool.methods.map Prod.snd :=
    fun e he => hmethods.mem_iff.2 (List.mem_flatMap.2 ⟨e, he, List.mem_cons_self⟩)
  obtain ⟨decoders, hfind, hdecoders⟩ := find_yields hnames haccessors hsetters
  have hremove : ∀ placed ∈ pool.methods,
      (removeFrom decoders placed.1 placed.2).Yields (placed.2.withoutProducts, ⟨1, 1⟩) := by
    intro placed hplaced
    obtain ⟨e, he, heq | heq⟩ := haccessors placed hplaced
    · rw [heq, removeFrom_setter (hdecoders e he), setter_withoutProducts]
      exact .pure _
    · rw [heq, removeFrom_getter (hdecoders e he), getter_withoutProducts]
      exact .pure _
  have hcount : total ((pool.methods.map fun _ => (⟨1, 1⟩ : Changes)).map Changes.cancelled) = 2 * fields.length := by
    have hlength := hmethods.length_eq
    simp only [List.length_map, List.length_flatMap, List.length_cons, List.length_nil, List.map_const',
      List.sum_replicate_nat] at hlength
    rw [List.map_map, Function.comp_def, total_ones, hlength]
    omega
  have hyields : pool.removeMultipliers.Yields (pool.withoutProducts, 2 * fields.length) := by
    rw [ClassPool.removeMultipliers, ← hcount]
    refine hfind.within.bind ((Logged.Yields.note _ _).bind ?_)
    refine (ClassPool.yields_traverseMethods hremove).bind ((Logged.Yields.note _ _).bind ?_)
    exact (Logged.Yields.note _ _).bind (.pure _)
  obtain ⟨lines, hrun⟩ := hyields.exists_run
  refine ⟨lines, hrun, fun e _ => ⟨fun p hp => ?_, fun p hp => ?_, fun w locals locals' memory v hvalue hkind => ?_⟩⟩
  · rw [ClassPool.withoutProducts, ClassPool.methodAt?_mapMethods, hp, Option.map_some, setter_withoutProducts]
  · rw [ClassPool.withoutProducts, ClassPool.methodAt?_mapMethods, hp, Option.map_some, getter_withoutProducts]
  · exact ⟨plainSetter_ends e hvalue hkind, plainGetter_ends e (if_pos rfl) hkind⟩

/-- A field with a multiplier of four bytes, and its static methods. -/
def encodedX : EncodedField where
  name := "x"
  encoder := .int 1364231567
  decoder := .int (-1510803089)
  isMultiplier := Number.isMultiplier_iff.2
    ⟨.int (-1510803089), Number.int_inverse?_iff.2 (by decide), by decide⟩
  inverse := Number.int_inverse?_iff.2 (by decide)
  slot := 0
  setting := { name := "setX", descriptor := "(I)V", access := Access.staticBit }
  getting := { name := "getX", descriptor := "()I", access := Access.staticBit }
  settable := ⟨[⟨.int, 0⟩], by decide +kernel, by decide⟩
  gettable := ⟨[], by decide +kernel, by decide⟩

/-- A field with a multiplier of eight bytes, and its methods, one of which is called on an object. -/
def encodedTotal : EncodedField where
  name := "total"
  encoder := .long 6768574230984609575
  decoder := .long (-7725242149359112041)
  isMultiplier := Number.isMultiplier_iff.2
    ⟨.long (-7725242149359112041), Number.long_inverse?_iff.2 (by decide), by decide⟩
  inverse := Number.long_inverse?_iff.2 (by decide)
  slot := 1
  setting := { name := "setTotal", descriptor := "(J)V" }
  getting := { name := "getTotal", descriptor := "()J", access := Access.staticBit }
  settable := ⟨[⟨.long, 0⟩], by decide +kernel, by decide⟩
  gettable := ⟨[], by decide +kernel, by decide⟩

/-- A class with the methods of both fields, in no particular order. -/
def encodedCounter : ClassPool where
  classes := [{ name := "Counter", methods :=
    [encodedTotal.getter "Counter", encodedX.setter "Counter", encodedX.getter "Counter",
      encodedTotal.setter "Counter"] }]
  ordered := by simp

/-- Both hypotheses hold of the class.  The methods at the first two places are plain, and 1234 is read after it was
stored. -/
theorem encodedCounter_plain :
    ([encodedX, encodedTotal].map EncodedField.name).Nodup ∧
      (encodedCounter.methods.map Prod.snd).Perm
        ([encodedX, encodedTotal].flatMap fun e => [e.setter "Counter", e.getter "Counter"]) ∧
      ∃ lines, encodedCounter.removeMultipliers.run = (lines, .ok (encodedCounter.withoutProducts, 4)) ∧
        (encodedCounter.withoutProducts.methodAt? ⟨"Counter", 0⟩).map MethodDecl.code =
          some [.field Opcode.getStatic ⟨"Counter", "total", "J"⟩, .simple Opcode.lreturn] ∧
        (encodedCounter.withoutProducts.methodAt? ⟨"Counter", 1⟩).map MethodDecl.code =
          some [.var Opcode.iload 0, .field Opcode.putStatic ⟨"Counter", "x", "I"⟩, .simple Opcode.vreturn] ∧
        ∀ (w : World Unit) (memory : Memory Unit),
          let stored := memory.set ⟨none, ⟨"Counter", "x", "I"⟩⟩ (.int 1234)
          Fold.Ends w (encodedX.plainSetter "Counter") (.running 0 ⟨fun _ => .int 1234, [], memory⟩)
            (.returned none stored) ∧
          Fold.Ends w (encodedX.plainGetter "Counter") (.running 0 ⟨fun _ => .ref none, [], stored⟩)
            (.returned (some (.int 1234)) stored) := by
  have hnames : ([encodedX, encodedTotal].map EncodedField.name).Nodup := by decide
  have hmethods : (encodedCounter.methods.map Prod.snd).Perm
      ([encodedX, encodedTotal].flatMap fun e => [e.setter "Counter", e.getter "Counter"]) :=
    (List.perm_append_singleton _ _).symm
  obtain ⟨lines, hrun, hall⟩ := removeMultipliers_encoded hnames hmethods
  obtain ⟨hset, -, hround⟩ := hall encodedX List.mem_cons_self
  obtain ⟨-, hget, -⟩ := hall encodedTotal (List.mem_cons_of_mem _ List.mem_cons_self)
  refine ⟨hnames, hmethods, lines, hrun, ?_, ?_, fun w memory => hround w _ _ memory (.int 1234) rfl rfl⟩
  · rw [hget ⟨"Counter", 0⟩ (by rfl)]
    rfl
  · rw [hset ⟨"Counter", 1⟩ (by rfl)]
    rfl

end Removal

end Multiplier

end Unscramble
