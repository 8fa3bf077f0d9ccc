import Dataflow.Proofs.Lower.ForEach

/-!
# Lowered built-in nodes

The code for a built-in node puts into the storage of its outlet the values that the node has as
its result for what its inlets gather. Where code is emitted element by element, it computes for
each position what the result holds there.
-/

namespace Dataflow

open Code (Context CountedLoop Store Emit Emitter Body StackBuffer ValueId Word)

namespace Builtin

open Lower

section Each

variable {C : Context} {g : Graph} {c : LowerContext} {o : Outlet} {inputs : List Values}
  {s s' : LowerState} {σ : Store} {v : Values} {u : Unit}

def Stored (C : Context) (o : Outlet) (v : Values) (s : LowerState) (σ : Store) : Prop :=
  ∀ st, s.storage.find? o.port = some st →
    st.Reached C s.emitter.body σ ∧ σ.memory.Bears (st.region C) v

def FilledTo (C : Context) (o : Outlet) (v : Values) (s : LowerState) (n : Nat) (σ : Store) :
    Prop :=
  ∀ b, s.storage.find? o.port = some (.stack b) →
    σ.memory.Filled (C.base + b.place.index) v n

theorem FilledTo.stored (h : FilledTo C o v s v.length σ) (hs : s.Suited [o]) :
    Stored C o v s σ := by
  intro st hst
  obtain ⟨b, rfl, -⟩ := hs o (List.mem_singleton_self o) st hst
  exact ⟨⟨nofun, nofun⟩, (h b hst).bears⟩

structure Computes (C : Context) (g : Graph) (c : LowerContext) (o : Outlet) (inputs : List Values)
    (v : Values) (element : Position → Lower ValueId) : Prop where
  plain : ∀ pos, Plain (element pos)
  yields : ∀ pos s x s' σ k a, Lowers c (element pos) s x s' → C.Covers s'.emitter →
    Ready C g [o] inputs s σ → pos.Is s.emitter.body σ k → v.scalars[k]? = some a →
      C.Yields s.emitter.body s'.emitter.body σ x a.word

/-- The next value of the result has been stored. -/
theorem stores_next {pos : Position} {x : ValueId} {n : Nat} {a : Scalar}
    (h : Lowers c (storeOutputAt 0 pos x) s u s') (ho : c.site.outlets[0]? = some o)
    (hC : C.Covers s'.emitter) (hbase : C.data.size < C.base) (hs : s.Orderly)
    (hsuited : s.Suited [o]) (hσ : C.Fits σ) (hx : σ.Carries s.emitter.body x a.word)
    (hpos : pos.Is s.emitter.body σ n) (ha : v.scalars[n]? = some a)
    (hv : v.elemType = o.elemType) (hlen : some v.length = o.size) {s₂ : LowerState}
    (hfinal : ∀ p st, s'.storage.find? p = some st → s₂.storage.find? p = some st)
    (hfilled : FilledTo C o v s₂ n σ) :
    ∃ σ', C.Advances s.emitter.body s'.emitter.body σ σ' ∧ σ'.vars = σ.vars ∧
      (∀ r, Guarded C [o] s r → σ'.memory[r]? = σ.memory[r]?) ∧ FilledTo C o v s₂ (n + 1) σ' := by
  have htype := (Values.elemType_of_mem_scalars (List.mem_of_getElem? ha)).trans hv
  have hn : n < v.length := by
    rw [← Values.length_scalars]
    exact (List.getElem?_eq_some_iff.1 ha).1
  obtain ⟨σ', b, hputs⟩ := puts_storeOutputAt h ho (.single o) hC hσ hbase hs hsuited hx hpos
    (Outlet.hasRoom_of_lt hlen.symm hn htype)
  refine ⟨σ', hputs.writes.toAdvances, hputs.writes.vars, fun _ => hputs.frame, fun b' hb' => ?_⟩
  have hb := hfinal _ _ hputs.storage
  obtain rfl := Storage.stack.inj (Option.some.inj (hb.symm.trans hb'))
  exact hputs.writes.filled hσ hputs.room (hfilled b hb') ha

def storeElement (element : Position → Lower ValueId) (pos : Position) : Lower Unit := do
  storeOutputAt 0 pos (← element pos)

theorem keeps_storeElement {element : Position → Lower ValueId} {pos : Position}
    (h : Lowers c (storeElement element pos) s u s') (ho : c.site.outlets[0]? = some o)
    (hplain : Plain (element pos)) : s.Keeps [o] s' := by
  obtain ⟨x, s₁, hx, h⟩ := lowers_bind.1 h
  obtain ⟨e, rfl, hstraight⟩ := hplain.of_lowers hx
  exact (LowerState.Keeps.of_straight hstraight).trans (keeps_storeOutputAt h ho (.single o))

theorem Computes.carrying {element : Position → Lower ValueId} {s₂ : LowerState}
    (helement : Computes C g c o inputs v element) (ho : c.site.outlets[0]? = some o)
    (hbase : C.data.size < C.base) (hv : v.elemType = o.elemType) (hlen : some v.length = o.size) :
    Carrying C g c [o] inputs s s₂ (storeElement element) v.length (FilledTo C o v s₂) where
  keeps pos s₁ s₂ h := keeps_storeElement h ho (helement.plain pos)
  stable k σ σ' e _ halike h b hb := (h b hb).congr (by rw [halike.memory])
  step k hk pos s₁ s₃ σ h hC _ hs hsuited hfinal hr hpos hfilled := by
    obtain ⟨x, s₁', hx, h⟩ := lowers_bind.1 h
    obtain ⟨e, rfl, hstraight⟩ := (helement.plain pos).of_lowers hx
    have hkeeps : s₁.Keeps [o] { s₁ with emitter := e } := .of_straight hstraight
    obtain ⟨a, ha⟩ : ∃ a, v.scalars[k]? = some a :=
      ⟨_, List.getElem?_eq_getElem (by simpa using hk)⟩
    have hC₁ := hC.of_grows (keeps_storeOutputAt h ho (.single o)).straight.toGrows
    obtain ⟨σ₁, hq, hx'⟩ := helement.yields pos _ _ _ σ k a hx hC₁ hr hpos ha
    have hpos₁ : pos.Is e.body σ₁ k := by
      cases pos with
      | fixed n => exact hpos
      | computed y => exact ⟨hpos.1, hq.carries hstraight.body hpos.2⟩
    have hfilled₁ : FilledTo C o v s₂ k σ₁ := fun b hb => (hfilled b hb).congr (by rw [hq.memory])
    obtain ⟨σ₂, hadv, hvars, hguard, hnext⟩ := stores_next h ho hC hbase (hkeeps.orderly hs)
      (hkeeps.suited hsuited) hq.fits hx' hpos₁ ha hv hlen hfinal hfilled₁
    refine ⟨σ₂, hq.toAdvances.trans hadv, fun r hr => ?_, fun y _ _ => by rw [hvars, hq.vars], hnext⟩
    rw [hguard r hr, hq.memory]

/-- Code for each element of the output makes its buffer bear the result. -/
theorem Computes.stored {element : Position → Lower ValueId}
    (helement : Computes C g c o inputs v element) (h : Lowers c (lowerEach element) s u s')
    (ho : c.site.outlets[0]? = some o) (hC : C.Covers s'.emitter) (hbase : C.data.size < C.base)
    (hs : s.Orderly) (hsuited : s.Suited [o]) (hreads : Reads g c [o] inputs)
    (hr : Ready C g [o] inputs s σ) (hv : v.elemType = o.elemType) (hlen : some v.length = o.size) :
    ∃ σ', C.Advances s.emitter.body s'.emitter.body σ σ' ∧ Ready C g [o] inputs s' σ' ∧
      Stored C o v s' σ' := by
  obtain ⟨n, _, hn, h⟩ := lowers_bind.1 h
  obtain ⟨o', ho', hn, rfl⟩ := lowers_outputSize.1 hn
  obtain rfl := Option.some.inj (ho.symm.trans ho')
  obtain rfl : v.length = n := Option.some.inj (hlen.trans hn)
  have hcarrying : Carrying C g c [o] inputs s s' (storeElement element) v.length
      (FilledTo C o v s') := helement.carrying ho hbase hv hlen
  have hfollows := follows_forEach h hs hcarrying.keeps
  obtain ⟨σ', hadv, hr', hfilled⟩ := advances_forEach h hcarrying hC hbase hs hsuited hreads hr
    fun σ' _ _ b _ => Code.Memory.filled_zero
  exact ⟨σ', hadv, hr', hfilled.stored (hfollows.suited hsuited)⟩

theorem follows_lowerEach {element : Position → Lower ValueId}
    (h : Lowers c (lowerEach element) s u s') (ho : c.site.outlets[0]? = some o) (hs : s.Orderly)
    (hplain : ∀ pos, Plain (element pos)) : s.Follows [o] s' := by
  obtain ⟨n, _, hn, h⟩ := lowers_bind.1 h
  obtain ⟨_, -, -, rfl⟩ := lowers_outputSize.1 hn
  exact follows_forEach h hs fun pos _ _ h => keeps_storeElement h ho (hplain pos)

end Each

section Elements

variable {C : Context} {g : Graph} {c : LowerContext} {o : Outlet} {inputs : List Values}
  {v : Values}

/-- One operand, and what is made of it. -/
theorem computes_one {make : ValueId → Emit ValueId} (hreads : Reads g c [o] inputs)
    (hlinear : ∀ x, (make x).Linear)
    (hmake : ∀ (k : Nat) (a : Scalar), v.scalars[k]? = some a → ∃ (w : Values) (p : Scalar),
      inputs[0]? = some w ∧ w.scalars[k]? = some p ∧ ∀ e e' σ x y, Succeeds (make x) e y e' →
        C.Covers e' → C.Fits σ → σ.Carries e.body x p.word → C.Yields e.body e'.body σ y a.word) :
    Computes C g c o inputs v fun pos => do
      let x ← inputAt 0 pos
      emit (make x) where
  plain pos := (Plain.inputAt _ _).bind fun _ => Plain.emit (hlinear _)
  yields pos s y s' σ k a h hC hr hpos ha := by
    obtain ⟨w, p, hw, hp, hmake⟩ := hmake k a ha
    obtain ⟨x, s₁, hx, h⟩ := lowers_bind.1 h
    obtain ⟨e, hy, rfl⟩ := lowers_emit.1 h
    have hgrows := ((hlinear x).straight hy).toGrows
    obtain ⟨σ₁, hq, hx'⟩ := yields_inputAt hx (hC.of_grows hgrows) hr hreads hw hp hpos
    exact .trans hq (hmake _ _ _ _ _ hy hC hq.fits hx')

theorem computes_two {make : ValueId → ValueId → Emit ValueId} (hreads : Reads g c [o] inputs)
    (hlinear : ∀ x y, (make x y).Linear)
    (hmake : ∀ (k : Nat) (a : Scalar), v.scalars[k]? = some a → ∃ (w w' : Values) (p q : Scalar),
      inputs[0]? = some w ∧ w.scalars[k]? = some p ∧ inputs[1]? = some w' ∧
        w'.scalars[k]? = some q ∧ ∀ e e' σ x y z, Succeeds (make x y) e z e' → C.Covers e' →
          C.Fits σ → σ.Carries e.body x p.word → σ.Carries e.body y q.word →
            C.Yields e.body e'.body σ z a.word) :
    Computes C g c o inputs v fun pos => do
      let x ← inputAt 0 pos
      let y ← inputAt 1 pos
      emit (make x y) where
  plain pos := (Plain.inputAt _ _).bind fun _ => (Plain.inputAt _ _).bind fun _ =>
    Plain.emit (hlinear _ _)
  yields pos s z s' σ k a h hC hr hpos ha := by
    obtain ⟨w, w', p, q, hw, hp, hw', hq, hmake⟩ := hmake k a ha
    obtain ⟨x, s₁, hx, h⟩ := lowers_bind.1 h
    obtain ⟨y, s₂, hy, h⟩ := lowers_bind.1 h
    obtain ⟨e, hz, rfl⟩ := lowers_emit.1 h
    obtain ⟨e₁, rfl, hstraight₁⟩ := (Plain.inputAt _ _).of_lowers hx
    obtain ⟨e₂, rfl, hstraight₂⟩ := (Plain.inputAt _ _).of_lowers hy
    have hC₂ := hC.of_grows ((hlinear x y).straight hz).toGrows
    obtain ⟨σ₁, hq₁, hx'⟩ :=
      yields_inputAt hx (hC₂.of_grows hstraight₂.toGrows) hr hreads hw hp hpos
    have hr₁ := hr.of_quiet (.of_straight hstraight₁) hq₁
    have hpos₁ : pos.Is e₁.body σ₁ k := by
      cases pos with
      | fixed n => exact hpos
      | computed i => exact ⟨hpos.1, hq₁.carries hstraight₁.body hpos.2⟩
    obtain ⟨σ₂, hq₂, hy'⟩ := yields_inputAt hy hC₂ hr₁ hreads hw' hq hpos₁
    exact .trans (hq₁.trans hq₂)
      (hmake _ _ _ _ _ _ hz hC hq₂.fits (hq₂.carries hstraight₂.body hx') hy')

variable {t : ElemType}

theorem computes_binary {op : Code.BinaryOp} {x y : TypedSelection t}
    {accepted : op.accepts t.ty = true} {sizes : x.size = y.size} (hreads : Reads g c [o] inputs)
    (heval : (binary t op x y accepted sizes).eval inputs = .ok (some v))
    (hv : v.elemType = t) : Computes C g c o inputs v (fun pos => do
      let x ← inputAt 0 pos
      let y ← inputAt 1 pos
      emit (Emit.operator op x y)) := by
  refine computes_two hreads (Emit.leaves_operator op) fun k a ha => ?_
  have hel := element_of_eval heval hv ha
  simp only [element, List.getElem?_map, Option.bind_eq_bind, Option.bind_eq_some_iff,
    Option.map_eq_some_iff] at hel
  obtain ⟨_, ⟨w, hw, rfl⟩, p, hp, _, ⟨w', hw', rfl⟩, q, hq, hpq⟩ := hel
  exact ⟨w, w', p, q, hw, hp, hw', hq, fun _ _ _ _ _ _ h hC hσ hx hy =>
    Context.yields_operator h hC hσ hx hy (Scalar.word_binary hpq)⟩

theorem computes_predicate {op : Code.CompareOp} {x y : TypedSelection t}
    {sizes : x.size = y.size} (hreads : Reads g c [o] inputs)
    (heval : (predicate t op x y sizes).eval inputs = .ok (some v))
    (hv : v.elemType = .boolean) : Computes C g c o inputs v (fun pos => do
      let x ← inputAt 0 pos
      let y ← inputAt 1 pos
      emit (Emit.compare op x y)) := by
  refine computes_two hreads (Emit.leaves_compare op) fun k a ha => ?_
  have hel := element_of_eval heval hv ha
  simp only [element, List.getElem?_map, Option.bind_eq_bind, Option.bind_eq_some_iff,
    Option.map_eq_some_iff] at hel
  obtain ⟨_, ⟨w, hw, rfl⟩, p, hp, _, ⟨w', hw', rfl⟩, q, hq, hpq⟩ := hel
  obtain ⟨r, hr, hra⟩ := Option.map_eq_some_iff.1 (Scalar.word_compare hpq)
  refine ⟨w, w', p, q, hw, hp, hw', hq, fun _ _ _ _ _ _ h hC hσ hx hy => ?_⟩
  rw [← hra]
  exact Context.yields_compare h hC hσ hx hy hr

theorem computes_unary {op : Code.UnaryOp} {x : TypedSelection t}
    {accepted : op.accepts t.ty = true} (hreads : Reads g c [o] inputs)
    (heval : (unary t op x accepted).eval inputs = .ok (some v)) (hv : v.elemType = t) :
    Computes C g c o inputs v (fun pos => do
      let x ← inputAt 0 pos
      emit (Emit.unary op x)) := by
  refine computes_one hreads (Emit.leaves_unary op) fun k a ha => ?_
  have hel := element_of_eval heval hv ha
  simp only [element, List.getElem?_map, Option.bind_eq_bind, Option.bind_eq_some_iff,
    Option.map_eq_some_iff] at hel
  obtain ⟨_, ⟨w, hw, rfl⟩, p, hp, hpa⟩ := hel
  exact ⟨w, p, hw, hp, fun _ _ _ _ _ h hC hσ hx =>
    Context.yields_unary h hC hσ hx (Scalar.word_unary hpa)⟩

theorem computes_cast {target : ElemType} {x : TypedSelection t} (hreads : Reads g c [o] inputs)
    (heval : (cast t target x).eval inputs = .ok (some v)) (hv : v.elemType = target) :
    Computes C g c o inputs v (fun pos => do
      let x ← inputAt 0 pos
      emit (Emit.cast x target.ty)) := by
  refine computes_one hreads (fun x => Emit.leaves_cast x target.ty) fun k a ha => ?_
  have hel := element_of_eval heval hv ha
  simp only [element, List.getElem?_map, Option.bind_eq_bind, Option.bind_eq_some_iff,
    Option.map_eq_some_iff] at hel
  obtain ⟨_, ⟨w, hw, rfl⟩, p, hp, hpa⟩ := hel
  obtain rfl := Option.some.inj hpa
  exact ⟨w, p, hw, hp, fun _ _ _ _ _ h hC hσ hx =>
    Context.yields_cast h hC hσ hx (Scalar.word_convert _ p target)⟩

end Elements

section Sum

variable {C : Context} {g : Graph} {c : LowerContext} {o : Outlet} {inputs : List Values}
  {s s' : LowerState} {σ : Store} {v w : Values} {u : Unit} {t : ElemType} {total : Code.VarId}

theorem sum_of_eval {x : TypedSelection t} {numeric : t.isNumeric = true}
    (h : (sum t x numeric).eval inputs = .ok (some v)) (hv : v.elemType = t) :
    ∃ w a, inputs[0]? = some w ∧ v.scalars = [a] ∧ Scalar.sum t w.scalars = some a := by
  obtain ⟨w, hw, h⟩ := bind_eq_ok_iff.1 h
  cases hs : Elementwise.sum? w with
  | none =>
      rw [hs] at h
      cases h
  | some v' =>
      rw [hs] at h
      obtain rfl := Option.some.inj (Except.ok.inj h)
      obtain ⟨hw', a, ha, hsum⟩ := Elementwise.sum?_eq_some hs
      obtain rfl : t = w.elemType := hv.symm.trans hw'
      exact ⟨w, a, inputValues_eq_ok hw, ha, hsum⟩

def partialSum (t : ElemType) (w : Values) (n : Nat) : Option Scalar :=
  Scalar.sum t (w.scalars.take n)

theorem exists_next_sum {n : Nat} {p q a : Scalar} (hsum : Scalar.sum t w.scalars = some a)
    (hp : partialSum t w n = some p) (hq : w.scalars[n]? = some q) :
    ∃ r, Scalar.binary .add p q = some r ∧ partialSum t w (n + 1) = some r := by
  have hn := (List.getElem?_eq_some_iff.1 hq).1
  have hnext : partialSum t w (n + 1) = Scalar.binary .add p q := by
    rw [partialSum, List.take_add_one, hq, Scalar.sum, List.foldlM_append]
    rw [partialSum, Scalar.sum] at hp
    rw [hp]
    simp
  rw [Scalar.sum, ← List.take_append_drop (n + 1) w.scalars, List.foldlM_append] at hsum
  obtain ⟨r, hr, -⟩ := Option.bind_eq_some_iff.1 hsum
  exact ⟨r, hnext ▸ hr, hr⟩

def Totals (t : ElemType) (w : Values) (total : Code.VarId) (n : Nat) (σ : Store) : Prop :=
  ∃ p, partialSum t w n = some p ∧ p.word.ty = t.ty ∧ σ.vars[total.index]? = some p.word

def addElement (total : Code.VarId) (pos : Position) : Lower Unit := do
  let value ← inputAt 0 pos
  emit do
    let sum ← Emit.getVar total
    Emit.setVar total (← Emit.operator .add sum value)

theorem plain_addElement (total : Code.VarId) (pos : Position) : Plain (addElement total pos) :=
  (Plain.inputAt _ _).bind fun _ => Plain.emit <| (Emit.leaves_getVar _).bind fun _ =>
    (Emit.leaves_operator _ _ _).bind fun _ => Emit.leaves_setVar _ _

theorem carrying_addElement {a : Scalar} (hreads : Reads g c [o] inputs) (hw : inputs[0]? = some w)
    (hsum : Scalar.sum t w.scalars = some a) (hown : s.emitter.Own total)
    (hvar : s.emitter.body.varTypes[total.index]? = some t.ty) :
    Carrying C g c [o] inputs s s' (addElement total) w.length (Totals t w total) where
  keeps pos s₁ s₂ h := by
    obtain ⟨e, rfl, hstraight⟩ := (plain_addElement total pos).of_lowers h
    exact .of_straight hstraight
  stable k σ σ' e hg halike := by
    rintro ⟨p, hp, ht, hval⟩
    exact ⟨p, hp, ht, (halike.vars total (hown.mono hg)).trans hval⟩
  step k hk pos s₁ s₂ σ h hC hg hs hsuited hfinal hr hpos hJ := by
    obtain ⟨p, hp, ht, hval⟩ := hJ
    obtain ⟨q, hq⟩ : ∃ q, w.scalars[k]? = some q :=
      ⟨_, List.getElem?_eq_getElem (by simpa using hk)⟩
    obtain ⟨r, hadd, hr'⟩ := exists_next_sum hsum hp hq
    obtain ⟨x, s₃, hx, h⟩ := lowers_bind.1 h
    obtain ⟨e, hemit, rfl⟩ := lowers_emit.1 h
    obtain ⟨y, e₁, hy, hemit⟩ := succeeds_bind.1 hemit
    obtain ⟨z, e₂, hz, hset⟩ := succeeds_bind.1 hemit
    obtain ⟨e₃, rfl, hstraight⟩ := (Plain.inputAt _ _).of_lowers hx
    have hget := Emit.Linear.straight (Emit.leaves_getVar _) hy
    have hC₂ := hC.of_grows (Emit.Linear.straight (Emit.leaves_setVar _ _) hset).toGrows
    have hC₁ := hC₂.of_grows (Emit.Linear.straight (Emit.leaves_operator _ _ _) hz).toGrows
    obtain ⟨σ₁, hq₁, hx'⟩ := yields_inputAt hx (hC₁.of_grows hget.toGrows) hr hreads hw hq hpos
    have htype : e₃.body.varTypes[total.index]? = some p.word.ty := by
      rw [ht]
      exact hstraight.body.varTypes _ _ (hg.body.varTypes _ _ hvar)
    obtain ⟨σ₂, hq₂, hy'⟩ := Context.yields_getVar hy hC₁ hq₁.fits (hq₁.vars ▸ hval) htype
    obtain ⟨σ₃, hq₃, hz'⟩ := Context.yields_operator hz hC₂ hq₂.fits hy'
      (hq₂.carries hget.body hx') (Scalar.word_binary hadd)
    have hquiet := hq₁.trans (hq₂.trans hq₃)
    have hadv := Context.advances_setVar hset hC hq₃.fits hz'.1
    refine ⟨_, hquiet.toAdvances.trans hadv, fun r _ => ?_, fun y hy _ => ?_, r, hr', ?_, ?_⟩
    · rw [← hquiet.memory]
      rfl
    · rw [← hquiet.vars]
      refine Array.getElem?_setIfInBounds_ne fun hty => hy ?_
      obtain rfl : total = y := congrArg Code.VarId.mk hty
      exact hown
    · exact (Context.ty_binary (Scalar.word_binary hadd)).trans ht
    · refine Array.getElem?_setIfInBounds_self_of_lt ?_
      rw [hquiet.vars]
      exact (Array.getElem?_eq_some_iff.1 hval).1

theorem succeeds_lowerSum (h : Lowers c (lowerSum t) s u s') :
    ∃ l zero e₁ total e₂ s₃ result e₄, c.site.inlets[0]? = some l ∧
      Succeeds (Emit.literal (.zero t.ty)) s.emitter zero e₁ ∧
      Succeeds (Emit.localVar zero) e₁ total e₂ ∧
      Lowers c (forEach l.selection.size (addElement total)) { s with emitter := e₂ } () s₃ ∧
      Succeeds (Emit.getVar total) s₃.emitter result e₄ ∧
      Lowers c (storeOutputAt 0 (.fixed 0) result) { s₃ with emitter := e₄ } u s' := by
  simp only [lowerSum, lowers_bind, lowers_inputSize, lowers_emit] at h
  obtain ⟨n, _, ⟨l, hl, rfl, rfl⟩, zero, _, ⟨e₁, hzero, rfl⟩, total, _, ⟨e₂, htotal, rfl⟩, _, s₃,
    heach, result, _, ⟨e₄, hresult, rfl⟩, hstore⟩ := h
  exact ⟨l, zero, e₁, total, e₂, s₃, result, e₄, hl, hzero, htotal, heach, hresult, hstore⟩

theorem keeps_addElement {pos : Position} (h : Lowers c (addElement total pos) s u s') :
    s.Keeps [o] s' := by
  obtain ⟨e, rfl, hstraight⟩ := (plain_addElement total pos).of_lowers h
  exact .of_straight hstraight

theorem follows_lowerSum (h : Lowers c (lowerSum t) s u s') (ho : c.site.outlets[0]? = some o)
    (hs : s.Orderly) : s.Follows [o] s' := by
  obtain ⟨l, zero, e₁, total, e₂, s₃, result, e₄, -, hzero, htotal, heach, hresult, hstore⟩ :=
    succeeds_lowerSum h
  have hfirst : s.Keeps [o] { s with emitter := e₂ } :=
    .of_straight ((Emit.Linear.straight (Emit.leaves_literal _) hzero).trans (Emit.Linear.straight (Emit.leaves_localVar _) htotal))
  have hlast : s₃.Keeps [o] { s₃ with emitter := e₄ } :=
    .of_straight (Emit.Linear.straight (Emit.leaves_getVar _) hresult)
  have heach' : LowerState.Follows [o] { s with emitter := e₂ } s₃ :=
    follows_forEach heach (hfirst.orderly hs) fun _ _ _ => keeps_addElement
  exact hfirst.follows.trans (heach'.trans (hlast.trans (keeps_storeOutputAt hstore ho (.single o))).follows)

/-- After all elements the variable holds the sum of the input. -/
theorem advances_total {e₁ e₂ : Emitter} {zero : ValueId} {a : Scalar}
    (hzero : Succeeds (Emit.literal (.zero t.ty)) s.emitter zero e₁)
    (htotal : Succeeds (Emit.localVar zero) e₁ total e₂)
    (heach : Lowers c (forEach w.length (addElement total)) { s with emitter := e₂ } u s')
    (hC : C.Covers s'.emitter) (hbase : C.data.size < C.base) (hs : s.Orderly)
    (hsuited : s.Suited [o]) (hreads : Reads g c [o] inputs) (hr : Ready C g [o] inputs s σ)
    (hw : inputs[0]? = some w) (hsum : Scalar.sum t w.scalars = some a) :
    ∃ σ', C.Advances s.emitter.body s'.emitter.body σ σ' ∧ Ready C g [o] inputs s' σ' ∧
      σ'.vars[total.index]? = some a.word ∧
        s'.emitter.body.varTypes[total.index]? = some a.word.ty := by
  have hlit := Emit.Linear.straight (Emit.leaves_literal _) hzero
  have hloc := Emit.Linear.straight (Emit.leaves_localVar _) htotal
  have hfirst : s.Keeps [o] { s with emitter := e₂ } := .of_straight (hlit.trans hloc)
  have hfollows : LowerState.Follows [o] { s with emitter := e₂ } s' :=
    follows_forEach heach (hfirst.orderly hs) fun _ _ _ => keeps_addElement
  have hC₂ := hC.of_grows hfollows.grows
  -- The total is zero before the first element.
  obtain ⟨σ₁, hq₁, hzero'⟩ := Context.yields_literal hzero (hC₂.of_grows hloc.toGrows) hr.fits
  rw [Scalar.word_zero] at hzero'
  obtain ⟨-, hvar, hadv₂⟩ := Context.advances_localVar htotal hC₂ hq₁.fits hzero'
  rw [Scalar.ty_word, Scalar.elemType_zero] at hvar
  have hlt : total.index < σ₁.vars.size := by
    rw [hq₁.fits.vars]
    exact (Array.getElem?_eq_some_iff.1 (hC₂.body.varTypes _ _ hvar)).1
  have hadv := hq₁.toAdvances.trans hadv₂
  have hr₂ : Ready C g [o] inputs { s with emitter := e₂ } (σ₁.setVar (Scalar.zero t).word total) :=
    hr.mono hfirst.straight.body hfirst.storage rfl hadv₂.fits hadv.values fun r _ => by
      rw [← hq₁.memory]
      rfl
  have hcarrying : Carrying C g c [o] inputs { s with emitter := e₂ } s' (addElement total) w.length
      (Totals t w total) :=
    carrying_addElement hreads hw hsum (Emit.own_localVar htotal (hlit.tidy hs.tidy)) hvar
  obtain ⟨σ₃, hadv₃, hr₃, p, hp, hpt, hval⟩ := advances_forEach heach hcarrying hC hbase
    (hfirst.orderly hs) hsuited hreads hr₂ fun σ' hvars _ => ⟨Scalar.zero t, rfl, by simp, by
      rw [hvars]
      exact Array.getElem?_setIfInBounds_self_of_lt hlt⟩
  obtain rfl : p = a := by
    rw [partialSum, List.take_of_length_le (by simp)] at hp
    exact Option.some.inj (hp.symm.trans hsum)
  exact ⟨σ₃, hadv.trans hadv₃, hr₃, hval, by rw [hpt]; exact hfollows.grows.body.varTypes _ _ hvar⟩

/-- The sum of an input is stored as the only element of the output. -/
theorem stored_lowerSum {x : TypedSelection t} {numeric : t.isNumeric = true}
    (h : Lowers c (lowerSum t) s u s') (ho : c.site.outlets[0]? = some o)
    (hC : C.Covers s'.emitter) (hbase : C.data.size < C.base) (hs : s.Orderly)
    (hsuited : s.Suited [o]) (hreads : Reads g c [o] inputs) (hr : Ready C g [o] inputs s σ)
    (heval : (sum t x numeric).eval inputs = .ok (some v)) (hvt : v.elemType = t)
    (hv : v.elemType = o.elemType) (hlen : some v.length = o.size) :
    ∃ σ', C.Advances s.emitter.body s'.emitter.body σ σ' ∧ Ready C g [o] inputs s' σ' ∧
      Stored C o v s' σ' := by
  obtain ⟨w, a, hw, ha, hsum⟩ := sum_of_eval heval hvt
  have hsuited' := (follows_lowerSum h ho hs).suited hsuited
  obtain ⟨l, zero, e₁, total, e₂, s₃, result, e₄, hl, hzero, htotal, heach, hresult, hstore⟩ :=
    succeeds_lowerSum h
  obtain ⟨w', hw', hwlen, -⟩ := Reads.exists_input hreads hl
  obtain rfl := Option.some.inj (hw.symm.trans hw')
  rw [← hwlen] at heach
  have hget := Emit.Linear.straight (Emit.leaves_getVar _) hresult
  have hlast : s₃.Keeps [o] { s₃ with emitter := e₄ } := .of_straight hget
  have hkeeps := keeps_storeOutputAt hstore ho (.single o)
  have hC₄ := hC.of_grows hkeeps.straight.toGrows
  have hfirst : s.Keeps [o] { s with emitter := e₂ } :=
    .of_straight ((Emit.Linear.straight (Emit.leaves_literal _) hzero).trans (Emit.Linear.straight (Emit.leaves_localVar _) htotal))
  have hfollows : LowerState.Follows [o] { s with emitter := e₂ } s₃ :=
    follows_forEach heach (hfirst.orderly hs) fun _ _ _ => keeps_addElement
  have hs₃ := hfollows.orderly (hfirst.orderly hs)
  obtain ⟨σ₃, hadv₃, hr₃, hval, hvar⟩ := advances_total hzero htotal heach
    (hC₄.of_grows hget.toGrows) hbase hs hsuited hreads hr hw hsum
  obtain ⟨σ₄, hq₄, hresult'⟩ := Context.yields_getVar hresult hC₄ hr₃.fits hval hvar
  have hr₄ := hr₃.of_quiet hlast hq₄
  obtain ⟨σ₅, hadv₅, -, hguard, hfilled⟩ := stores_next (n := 0) hstore ho hC hbase
    (hlast.orderly hs₃) (hlast.suited (hfollows.suited hsuited)) hq₄.fits hresult' rfl
    (by rw [ha]; rfl) hv hlen (fun _ _ hst => hst) fun _ _ => Code.Memory.filled_zero
  refine ⟨σ₅, hadv₃.trans (hq₄.toAdvances.trans hadv₅), ?_, FilledTo.stored ?_ hsuited'⟩
  · exact hr₄.mono hkeeps.straight.body hkeeps.storage hkeeps.gathered hadv₅.fits hadv₅.values
      hguard
  · rw [← Values.length_scalars, ha]
    exact hfilled

end Sum

section Lower

variable {C : Context} {g : Graph} {c : LowerContext} {o : Outlet} {inputs : List Values}
  {s s' : LowerState} {σ : Store} {v : Values} {u : Unit} {b : Builtin}

theorem succeeds_setOutputLiteral (h : Lowers c (setOutputLiteral 0 v) s u s')
    (ho : c.site.outlets[0]? = some o) : ∃ id e, Succeeds (Emit.literalData v) s.emitter id e ∧
      s' = { s with emitter := e, storage := s.storage.insert o.port (.data id) } := by
  simp only [setOutputLiteral, lowers_bind, lowers_outlet, ho, Option.some.injEq] at h
  obtain ⟨_, _, ⟨rfl, rfl⟩, h⟩ := h
  obtain ⟨-, h⟩ := lowers_refuse.1 h
  obtain ⟨n, _, hn, h⟩ := lowers_bind.1 h
  obtain ⟨_, -, -, rfl⟩ := lowers_outputSize.1 hn
  obtain ⟨-, h⟩ := lowers_refuse.1 h
  simp only [lowers_bind, lowers_emit, setStorage, lowers_modify] at h
  obtain ⟨id, _, ⟨e, hid, rfl⟩, rfl⟩ := h
  exact ⟨id, e, hid, rfl⟩

theorem find?_insert_of_ne {e : Emitter} {p : Port} {st : Storage} (hp : p ≠ o.port) :
    ({ s with emitter := e, storage := s.storage.insert o.port st } : LowerState).storage.find? p =
      s.storage.find? p :=
  (Table.find?_insert ..).trans (if_neg hp)

/-- Module data bear the values that they were made from. -/
theorem stored_setOutputLiteral (h : Lowers c (setOutputLiteral 0 v) s u s')
    (ho : c.site.outlets[0]? = some o) (hC : C.Covers s'.emitter)
    (hr : Ready C g [o] inputs s σ) : C.Quiet s.emitter.body s'.emitter.body σ σ ∧
      Ready C g [o] inputs s' σ ∧ Stored C o v s' σ := by
  obtain ⟨id, e, hid, rfl⟩ := succeeds_setOutputLiteral h ho
  obtain ⟨hsilent, name, hdatum⟩ := Emit.succeeds_literalData hid
  have hdata := hC.data _ _ hdatum
  refine ⟨.of_silent hsilent hr.fits, ?_, fun st hst => ?_⟩
  · exact hr.mono hsilent.body (fun p hp => find?_insert_of_ne (Outlet.notMem_single.1 hp)) rfl hr.fits
      (fun _ _ => rfl) fun _ _ => rfl
  · have hfind : (s.storage.insert o.port (.data id)).find? o.port = some (.data id) :=
      (Table.find?_insert ..).trans (if_pos rfl)
    obtain rfl : Storage.data id = st := Option.some.inj (hfind.symm.trans hst)
    refine ⟨⟨nofun, fun id' hid' => ?_⟩, Code.Memory.bears_bytes (hr.fits.data _ _ hdata) ?_⟩
    · obtain rfl := Storage.data.inj hid'
      exact (Array.getElem?_eq_some_iff.1 hdata).1
    · cases hbytes : v.bytes with
      | nil => exact List.nil_prefix
      | cons x xs => simp [Code.Executable.dataRegion]

theorem orderly_setOutputLiteral (h : Lowers c (setOutputLiteral 0 v) s u s')
    (ho : c.site.outlets[0]? = some o) (hs : s.Orderly) : s.emitter.Grows s'.emitter ∧
      (∀ p, p ≠ o.port → s'.storage.find? p = s.storage.find? p) ∧ s'.Orderly := by
  obtain ⟨id, e, hid, rfl⟩ := succeeds_setOutputLiteral h ho
  have hgrows := (Emit.succeeds_literalData hid).1.toGrows
  refine ⟨hgrows, fun p hp => find?_insert_of_ne hp, hs.of_grows hgrows fun w k hk => ?_⟩
  cases w with
  | inr i => exact hk
  | inl p =>
      rw [LowerState.buffer_inl] at hk ⊢
      by_cases hp : p = o.port
      · subst hp
        have hfind : (s.storage.insert o.port (.data id)).find? o.port = some (.data id) :=
          (Table.find?_insert ..).trans (if_pos rfl)
        cases hfind.symm.trans hk
      · rwa [find?_insert_of_ne hp] at hk

theorem succeeds_lower_input {t : ElemType} {size : Option Nat}
    (h : Lowers c (lower (.input t size)) s u s') :
    s' = s ∧ ∃ o, c.site.outlets[0]? = some o ∧ s.storage.contains o.port = true := by
  obtain ⟨stored, _, hstored, h⟩ := lowers_bind.1 h
  obtain ⟨o, ho, hcontains, rfl⟩ := lowers_hasStorage.1 hstored
  cases stored with
  | false =>
      obtain ⟨_, _, -, h⟩ := lowers_bind.1 h
      exact absurd h lowers_throw
  | true =>
      obtain ⟨-, rfl⟩ := lowers_pure.1 h
      exact ⟨rfl, o, ho, hcontains⟩

/-- Nothing is emitted for what is supplied from outside. -/
theorem eq_of_lower (h : Lowers c b.lower s u s') (hb : b.isInput = true) : s' = s := by
  cases b with
  | input t size => exact (succeeds_lower_input h).1
  | _ => cases hb

/-- Lowering a built-in node gives storage to its outlet alone. -/
theorem orderly_lower (h : Lowers c b.lower s u s') (ho : c.site.outlets[0]? = some o)
    (hs : s.Orderly) : s.emitter.Grows s'.emitter ∧
      (∀ p, p ≠ o.port → s'.storage.find? p = s.storage.find? p) ∧ s'.Orderly := by
  have heach : ∀ {element : Position → Lower ValueId}, Lowers c (lowerEach element) s u s' →
      (∀ pos, Plain (element pos)) → s.Follows [o] s' := fun h hplain => follows_lowerEach h ho hs hplain
  have hall : s.Follows [o] s' → s.emitter.Grows s'.emitter ∧
      (∀ p, p ≠ o.port → s'.storage.find? p = s.storage.find? p) ∧ s'.Orderly :=
    fun h => ⟨h.grows, fun p hp => h.storage p (Outlet.notMem_single.2 hp), h.orderly hs⟩
  have htwo : ∀ {make : ValueId → ValueId → Emit ValueId} (pos : Position),
      (∀ x y, (make x y).Linear) → Plain (do
        let x ← inputAt 0 pos
        let y ← inputAt 1 pos
        emit (make x y)) := fun pos hmake =>
    (Plain.inputAt _ _).bind fun _ => (Plain.inputAt _ _).bind fun _ => Plain.emit (hmake _ _)
  have hone : ∀ {make : ValueId → Emit ValueId} (pos : Position), (∀ x, (make x).Linear) →
      Plain (do
        let x ← inputAt 0 pos
        emit (make x)) := fun pos hmake =>
    (Plain.inputAt _ _).bind fun _ => Plain.emit (hmake _)
  cases b with
  | input t size =>
      obtain ⟨rfl, -⟩ := succeeds_lower_input h
      exact ⟨.refl _, fun _ _ => rfl, hs⟩
  | constant values => exact orderly_setOutputLiteral h ho hs
  | binary t op => exact hall (heach h fun pos => htwo pos (Emit.leaves_operator op))
  | predicate t op => exact hall (heach h fun pos => htwo pos (Emit.leaves_compare op))
  | unary t op => exact hall (heach h fun pos => hone pos (Emit.leaves_unary op))
  | sum t => exact hall (follows_lowerSum h ho hs)
  | cast t target =>
      exact hall (heach h fun pos => hone pos fun x => Emit.leaves_cast x target.ty)

/-- The code for a built-in node puts its result into the storage of its outlet. -/
theorem stored_lower (h : Lowers c b.lower s u s') (ho : c.site.outlets[0]? = some o)
    (hC : C.Covers s'.emitter) (hbase : C.data.size < C.base) (hs : s.Orderly)
    (hsuited : s.Suited [o]) (hreads : Reads g c [o] inputs) (hr : Ready C g [o] inputs s σ)
    (heval : b.eval inputs = .ok (some v)) (hvb : v.elemType = b.elemType)
    (hv : v.elemType = o.elemType) (hlen : some v.length = o.size) :
    ∃ σ', C.Advances s.emitter.body s'.emitter.body σ σ' ∧ Ready C g [o] inputs s' σ' ∧
      Stored C o v s' σ' := by
  cases b with
  | input t size => cases heval
  | constant values =>
      obtain rfl := Option.some.inj (Except.ok.inj heval)
      obtain ⟨hq, hr', hstored⟩ := stored_setOutputLiteral h ho hC hr
      exact ⟨σ, hq.toAdvances, hr', hstored⟩
  | binary t op =>
      exact (computes_binary hreads heval hvb).stored h ho hC hbase hs hsuited hreads hr hv hlen
  | predicate t op =>
      exact (computes_predicate hreads heval hvb).stored h ho hC hbase hs hsuited hreads hr hv hlen
  | unary t op =>
      exact (computes_unary hreads heval hvb).stored h ho hC hbase hs hsuited hreads hr hv hlen
  | sum t => exact stored_lowerSum h ho hC hbase hs hsuited hreads hr heval hvb hv hlen
  | cast t target =>
      exact (computes_cast hreads heval hvb).stored h ho hC hbase hs hsuited hreads hr hv hlen

end Lower

end Builtin

end Dataflow
