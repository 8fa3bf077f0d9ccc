import Dataflow.Proofs.Lower.Node

/-!
# The copy of an output

In the end the spans of the output are copied into a buffer of the caller, one behind the other.
Nothing else is stored there, and nothing that the copy reads changes on the way.
-/

namespace Dataflow

open Code (Context CountedLoop Settings Store Emit Emitter StackBuffer ValueId)

/-- The two buffers of the caller come right before those of the frame. The second one has room for
the values. -/
structure Receives (C : Context) (v : Values) : Prop where
  base : C.base = C.data.size + 2
  room : C.Room (C.data.size + 1) v.elemType.ty v.length

structure Supplies (g : Graph) (v : Values) (spans : List Span) (offset : Nat) : Prop where
  type : ∀ sp ∈ spans, sp.elemType = v.elemType
  cells : ∀ (k : Nat) (c : Cell), (spans.flatMap Span.cells)[k]? = some c → c.index < 2 ^ 31 ∧
    ∃ a o, v.scalars[offset + k]? = some a ∧ g.outlet c.port = .ok o ∧
      o.values.scalars[c.index]? = some a
  small : v.length < 2 ^ 31

structure Copied (C : Context) (g : Graph) (out : ValueId) (v : Values) (s : LowerState) (n : Nat)
    (σ : Store) : Prop extends Stands C g out s σ where
  filled : σ.memory.Filled (C.data.size + 1) v n

section Supplies

variable {g : Graph} {v : Values} {sp : Span} {spans : List Span} {offset : Nat}

theorem Supplies.tail (h : Supplies g v (sp :: spans) offset) :
    Supplies g v spans (offset + sp.length) where
  type s hs := h.type s (by simp [hs])
  cells k c hc := by
    have hlen := Selection.length_cells_span sp
    have hcell : ((sp :: spans).flatMap Span.cells)[sp.length + k]? = some c := by
      rw [List.flatMap_cons, List.getElem?_append_right (by omega), hlen, Nat.add_sub_cancel_left]
      exact hc
    rw [Nat.add_assoc]
    exact h.cells _ _ hcell
  small := h.small

/-- An element of the first span is one of the values. -/
theorem Supplies.element (h : Supplies g v (sp :: spans) offset) {k : Nat} (hk : k < sp.length) :
    sp.start + k < 2 ^ 31 ∧ offset + k < 2 ^ 31 ∧ ∃ a o, v.scalars[offset + k]? = some a ∧
      a.word.ty = sp.elemType.ty ∧ g.outlet sp.port = .ok o ∧
        o.values.scalars[sp.start + k]? = some a := by
  have hcell : ((sp :: spans).flatMap Span.cells)[k]? =
      some ⟨sp.port, sp.elemType, sp.start + k⟩ := by
    rw [List.flatMap_cons, List.getElem?_append_left (by simpa using hk)]
    simp [Span.cells, hk]
  obtain ⟨hstart, a, o, ha, ho, hheld⟩ := h.cells _ _ hcell
  have hlt : offset + k < v.length := by
    rw [← Values.length_scalars]
    exact (List.getElem?_eq_some_iff.1 ha).1
  refine ⟨hstart, hlt.trans h.small, a, o, ha, ?_, ho, hheld⟩
  rw [Scalar.ty_word, Values.elemType_of_mem_scalars (List.mem_of_getElem? ha),
    h.type sp (by simp)]

end Supplies

section Copied

variable {C : Context} {g : Graph} {out : ValueId} {v : Values} {s s' : LowerState} {n : Nat}
  {σ σ' : Store}

theorem Copied.mono (h : Copied C g out v s n σ) (hb : s.emitter.body.Within s'.emitter.body)
    (hstorage : s'.storage = s.storage) (hσ : C.Fits σ')
    (hvalues : ∀ i < s.emitter.body.valueTypes.size, σ'.values[i]? = σ.values[i]?)
    (hmemory : σ'.memory = σ.memory) : Copied C g out v s' n σ' where
  toStands := h.toStands.mono hb (fun p st hst => hstorage ▸ hst) hσ hvalues hmemory
  filled := h.filled.congr (by rw [hmemory])

/-- The output is no region that is read. -/
theorem Storage.region_ne (hbase : C.base = C.data.size + 2) {st : Storage}
    (hdata : ∀ id, st = .data id → id.index < C.data.size) : st.region C ≠ C.data.size + 1 := by
  cases st with
  | argument x => exact Nat.ne_of_lt (Nat.lt_succ_self _)
  | stack b =>
      change C.base + b.place.index ≠ C.data.size + 1
      omega
  | data id =>
      have := hdata id rfl
      change id.index ≠ C.data.size + 1
      omega

/-- There is room for each of the values. -/
theorem Receives.room_element (hv : Receives C v) {a : Scalar} (ha : v.scalars[n]? = some a) :
    C.Room (C.data.size + 1) a.word.ty (n + 1) := by
  rw [Scalar.ty_word, Values.elemType_of_mem_scalars (List.mem_of_getElem? ha)]
  refine hv.room.mono ?_
  rw [← Values.length_scalars]
  exact (List.getElem?_eq_some_iff.1 ha).1

/-- The next value has been copied. -/
theorem Copied.next (h : Copied C g out v s n σ) (hv : Receives C v)
    (hb : s.emitter.body.Within s'.emitter.body) (hstorage : s'.storage = s.storage)
    (hσ : C.Fits σ') (hvalues : ∀ i < s.emitter.body.valueTypes.size, σ'.values[i]? = σ.values[i]?)
    {a : Scalar} (ha : v.scalars[n]? = some a)
    (hmemory : σ'.memory = σ.memory.put C.layout (C.data.size + 1) (n * a.word.ty.size) a.word) :
    Copied C g out v s' (n + 1) σ' := by
  refine ⟨⟨hσ, fun p => ?_, h.output.mono hb hvalues⟩, ?_⟩
  · refine (h.backed p).mono hb (fun st hst => hstorage ▸ hst) hvalues fun st _ hdata => ?_
    rw [hmemory]
    exact Code.Memory.getElem?_put_of_ne (Storage.region_ne hv.base hdata)
  · obtain ⟨region, hregion, -, hfit⟩ := (hv.room_element ha).exists_region h.fits
    rw [hmemory]
    exact h.filled.put ha hregion hfit

end Copied

namespace Lower

section Element

variable {C : Context} {g : Graph} {out : ValueId} {v : Values} {s : LowerState} {n k : Nat}
  {σ : Store} {e' : Emitter} {u : Unit} {sp : Span} {spans : List Span} {offset : Nat}

def copyFixed (storage : Table Port Storage) (out : ValueId) (sp : Span) (offset i : Nat) :
    Emit Unit := do
  let source ← address storage sp.port
  let value ← Emit.load sp.elemType.ty source (sp.start + i)
  Emit.store out (offset + i) value

def copyComputed (storage : Table Port Storage) (out : ValueId) (sp : Span) (offset : Nat)
    (i : ValueId) : Emit Unit := do
  let source ← address storage sp.port
  let value ← Emit.loadDynamic sp.elemType.ty source (← moved i sp.start)
  Emit.storeDynamic out (← moved i offset) value

theorem linear_copyFixed (storage : Table Port Storage) (out : ValueId) (sp : Span)
    (offset i : Nat) : (copyFixed storage out sp offset i).Linear :=
  (leaves_address _ _).bind fun _ => (Emit.leaves_load _ _ _).bind fun _ =>
    Emit.leaves_store _ _ _

theorem linear_copyComputed (storage : Table Port Storage) (out : ValueId) (sp : Span)
    (offset : Nat) (i : ValueId) : (copyComputed storage out sp offset i).Linear :=
  (leaves_address _ _).bind fun _ => (leaves_moved _ _).bind fun _ =>
    (Emit.leaves_loadDynamic _ _ _).bind fun _ => (leaves_moved _ _).bind fun _ =>
      Emit.leaves_storeDynamic _ _ _

theorem advances_copyFixed (h : Succeeds (copyFixed s.storage out sp offset k) s.emitter u e')
    (hC : C.Covers e') (hv : Receives C v) (hsp : Supplies g v (sp :: spans) offset)
    (hk : k < sp.length) (hσ : Copied C g out v s (offset + k) σ) :
    ∃ σ', C.Advances s.emitter.body e'.body σ σ' ∧
      Copied C g out v { s with emitter := e' } (offset + k + 1) σ' := by
  obtain ⟨-, -, a, o, ha, hty, ho, hheld⟩ := hsp.element hk
  have hstraight := (linear_copyFixed _ _ _ _ _).straight h
  obtain ⟨source, e₁, hsource, h₁⟩ := succeeds_bind.1 h
  obtain ⟨value, e₂, hvalue, hstore⟩ := succeeds_bind.1 h₁
  obtain ⟨st, hst⟩ := exists_storage hsource
  obtain ⟨hreached, hbears⟩ := hσ.backed _ st hst
  have haddress := Emit.Linear.straight (leaves_address _ _) hsource
  have hload := Emit.Linear.straight (Emit.leaves_load _ _ _) hvalue
  have hC₂ := hC.of_grows (Emit.Linear.straight (Emit.leaves_store _ _ _) hstore).toGrows
  have hC₁ := hC₂.of_grows hload.toGrows
  obtain ⟨σ₁, hq₁, hsource'⟩ := yields_address hsource hst hreached hC₁ hσ.fits
  have hholds : σ₁.memory.Holds C.layout (st.region C) sp.elemType.ty (sp.start + k) a.word := by
    rw [hq₁.memory, ← hty]
    exact hbears o ho _ _ _ hheld
  obtain ⟨σ₂, hq₂, hvalue'⟩ := Context.yields_load hvalue hC₂ hq₁.fits hsource' hholds hty
  have hq := hq₁.trans hq₂
  obtain ⟨σ₃, hwrites⟩ := Context.writes_store hstore hC hq₂.fits (hv.room_element ha)
    (hq.carries (haddress.trans hload).body hσ.output) hvalue'
  have hall := Context.Writes.of_quiet hq hwrites
  exact ⟨σ₃, hall.toAdvances, hσ.next hv hstraight.body rfl hall.fits hall.values ha hall.memory⟩

/-- In a loop an element is copied like any other, and afterwards things stand as they did at the
head of the loop. -/
theorem advances_copyComputed {i : ValueId} {e : Emitter}
    (h : Succeeds (copyComputed s.storage out sp offset i) e u e') (hs : s.emitter.Grows e)
    (hC : C.Covers e') (hv : Receives C v) (hsp : Supplies g v (sp :: spans) offset)
    (hk : k < sp.length) (hσ : Copied C g out v s (offset + k) σ)
    (hi : σ.Carries e.body i (.i32 (.ofNat k))) :
    ∃ σ', C.Advances e.body e'.body σ σ' ∧ σ'.vars = σ.vars ∧
      Copied C g out v s (offset + k + 1) σ' := by
  obtain ⟨hstart, hoffset, a, o, ha, hty, ho, hheld⟩ := hsp.element hk
  obtain ⟨source, e₁, hsource, h₁⟩ := succeeds_bind.1 h
  obtain ⟨x, e₂, hx, h₂⟩ := succeeds_bind.1 h₁
  obtain ⟨value, e₃, hvalue, h₃⟩ := succeeds_bind.1 h₂
  obtain ⟨y, e₄, hy, hstore⟩ := succeeds_bind.1 h₃
  obtain ⟨st, hst⟩ := exists_storage hsource
  have hσ' : Copied C g out v { s with emitter := e } (offset + k) σ :=
    hσ.mono hs.body rfl hσ.fits (fun _ _ => rfl) rfl
  obtain ⟨hreached, hbears⟩ := hσ'.backed _ st hst
  have haddress := Emit.Linear.straight (leaves_address _ _) hsource
  have hmoved := Emit.Linear.straight (leaves_moved _ _) hx
  have hload := Emit.Linear.straight (Emit.leaves_loadDynamic _ _ _) hvalue
  have hmoved' := Emit.Linear.straight (leaves_moved _ _) hy
  have hC₄ := hC.of_grows (Emit.Linear.straight (Emit.leaves_storeDynamic _ _ _) hstore).toGrows
  have hC₃ := hC₄.of_grows hmoved'.toGrows
  have hC₂ := hC₃.of_grows hload.toGrows
  have hC₁ := hC₂.of_grows hmoved.toGrows
  obtain ⟨σ₁, hq₁, hsource'⟩ := yields_address hsource hst hreached hC₁ hσ.fits
  obtain ⟨σ₂, hq₂, hx'⟩ := yields_moved hx hC₂ hq₁.fits (hq₁.carries haddress.body hi)
  have hq₁₂ := hq₁.trans hq₂
  have hholds : σ₂.memory.Holds C.layout (st.region C) sp.elemType.ty (sp.start + k) a.word := by
    rw [hq₁₂.memory, ← hty]
    exact hbears o ho _ _ _ hheld
  rw [Nat.add_comm k] at hx'
  obtain ⟨σ₃, hq₃, hvalue'⟩ := Context.yields_loadDynamic hvalue hC₃ hq₂.fits
    (hq₂.carries hmoved.body hsource') hx' (Int32.toInt_ofNat_of_lt hstart) hholds hty
  have hq₁₃ := hq₁₂.trans hq₃
  have hthree := haddress.trans (hmoved.trans hload)
  obtain ⟨σ₄, hq₄, hy'⟩ := yields_moved hy hC₄ hq₃.fits (hq₁₃.carries hthree.body hi)
  rw [Nat.add_comm k] at hy'
  have hq := hq₁₃.trans hq₄
  obtain ⟨σ₅, hwrites⟩ := Context.writes_storeDynamic hstore hC hq₄.fits (hv.room_element ha)
    (hq.carries (hthree.trans hmoved').body hσ'.output) hy' (Int32.toInt_ofNat_of_lt hoffset)
    (hq₄.carries hmoved'.body hvalue')
  have hall := Context.Writes.of_quiet hq hwrites
  refine ⟨σ₅, hall.toAdvances, hall.vars, hσ.next hv (.refl _) rfl hall.fits (fun j hj => ?_) ha
    hall.memory⟩
  exact hall.values j (hj.trans_le hs.body.valueTypes.size_le)

end Element

structure Copies (g : Graph) (out : ValueId) (v : Values) (s : LowerState) (n : Nat) (e' : Emitter)
    (n' : Nat) : Prop where
  grows : s.emitter.Grows e'
  run : ∀ (C : Context) (σ : Store), C.Covers e' → Receives C v → Copied C g out v s n σ →
    ∃ σ', C.Advances s.emitter.body e'.body σ σ' ∧
      Copied C g out v { s with emitter := e' } n' σ'

section Copies

variable {g : Graph} {out : ValueId} {v : Values} {s : LowerState} {n m l : Nat} {e e' e'' : Emitter}
  {u : Unit} {sp : Span} {spans : List Span} {offset : Nat} {settings : Settings}

theorem Copies.refl (s : LowerState) : Copies g out v s n s.emitter n :=
  ⟨.refl _, fun _ σ _ _ hσ => ⟨σ, .refl hσ.fits, hσ⟩⟩

theorem Copies.trans (h : Copies g out v s n e m)
    (h' : Copies g out v { s with emitter := e } m e' l) : Copies g out v s n e' l where
  grows := h.grows.trans h'.grows
  run C σ hC hv hσ := by
    obtain ⟨σ₁, hadv, hσ₁⟩ := h.run C σ (hC.of_grows h'.grows) hv hσ
    obtain ⟨σ₂, hadv', hσ₂⟩ := h'.run C σ₁ hC hv hσ₁
    exact ⟨σ₂, hadv.trans hadv', hσ₂⟩

theorem copies_unrolled (hsp : Supplies g v (sp :: spans) offset) (hn : n ≤ sp.length)
    (h : Succeeds ((List.range n).forM (copyFixed s.storage out sp offset)) s.emitter u e') :
    Copies g out v s offset e' (offset + n) := by
  induction n generalizing e' with
  | zero =>
      obtain ⟨-, rfl⟩ := succeeds_pure.1 h
      exact .refl s
  | succ n ih =>
      rw [List.range_succ, List.forM_eq_forM, List.forM_append] at h
      obtain ⟨_, e, hfirst, hrest⟩ := succeeds_bind.1 h
      obtain ⟨_, e₁, hlast, hnil⟩ := succeeds_bind.1 hrest
      obtain ⟨-, rfl⟩ := succeeds_pure.1 hnil
      refine (ih (by omega) hfirst).trans ⟨((linear_copyFixed _ _ _ _ _).straight hlast).toGrows,
        fun C σ hC hv hσ => ?_⟩
      exact advances_copyFixed (s := { s with emitter := e }) hlast hC hv hsp hn hσ

theorem succeeds_copySpan (h : Succeeds (copySpan settings s.storage out sp offset) e u e') :
    Succeeds ((List.range sp.length).forM (copyFixed s.storage out sp offset)) e u e' ∨
    sp.length < 2 ^ 31 ∧ ∃ loop e₁ i e₂ e₃ loop',
      Succeeds (CountedLoop.idle.begin (Int32.ofNat sp.length)) e loop e₁ ∧
      Succeeds loop.counter e₁ i e₂ ∧
      Succeeds (copyComputed s.storage out sp offset i) e₂ () e₃ ∧
      Succeeds loop.finish e₃ loop' e' := by
  unfold copySpan at h
  dsimp only at h
  split at h
  · exact Or.inl h
  obtain ⟨hn, h₁⟩ := succeeds_refuse.1 h
  obtain ⟨loop, e₁, hbegin, h₂⟩ := succeeds_bind.1 h₁
  obtain ⟨i, e₂, hcounter, h₃⟩ := succeeds_bind.1 h₂
  obtain ⟨source, t₁, hsource, h₄⟩ := succeeds_bind.1 h₃
  obtain ⟨x, t₂, hx, h₅⟩ := succeeds_bind.1 h₄
  obtain ⟨value, t₃, hvalue, h₆⟩ := succeeds_bind.1 h₅
  obtain ⟨y, t₄, hy, h₇⟩ := succeeds_bind.1 h₆
  obtain ⟨_, e₃, hstore, h₈⟩ := succeeds_bind.1 h₇
  obtain ⟨loop', e₄, hfinish, h₉⟩ := succeeds_bind.1 h₈
  obtain ⟨-, rfl⟩ := succeeds_pure.1 h₉
  refine Or.inr ⟨by omega, loop, e₁, i, e₂, e₃, loop', hbegin, hcounter, ?_, hfinish⟩
  exact succeeds_bind.2 ⟨source, t₁, hsource, succeeds_bind.2 ⟨x, t₂, hx, succeeds_bind.2
    ⟨value, t₃, hvalue, succeeds_bind.2 ⟨y, t₄, hy, hstore⟩⟩⟩⟩

theorem copies_span (hsp : Supplies g v (sp :: spans) offset)
    (h : Succeeds (copySpan settings s.storage out sp offset) s.emitter u e') :
    Copies g out v s offset e' (offset + sp.length) := by
  rcases succeeds_copySpan h with h | ⟨hn, loop, e₁, i, e₂, e₃, loop', hbegin, hcounter, hcopy,
    hfinish⟩
  · exact copies_unrolled hsp (Nat.le_refl _) h
  · have hstraight := (linear_copyComputed _ _ _ _ _).straight hcopy
    obtain ⟨hgrows, hgrows', hloop⟩ :=
      CountedLoop.advances_loop hbegin hcounter hstraight hfinish hn
    refine ⟨hgrows.trans (hstraight.toGrows.trans hgrows'), fun C σ hC hv hσ => ?_⟩
    have hinvariant : CountedLoop.Invariant C s.emitter e₂ e₃ i sp.length
        fun k σ => Copied C g out v s (offset + k) σ := by
      refine ⟨fun k σ σ' hI hsame hσ' => ?_, fun k hk σ _ hI hi => ?_⟩
      · exact hI.mono (.refl _) rfl hσ' hsame.values hsame.memory
      · obtain ⟨σ', hadv, hvars, hσ'⟩ :=
          advances_copyComputed hcopy hgrows (hC.of_grows hgrows') hv hsp hk hI hi
        exact ⟨σ', hadv, hσ', fun x _ _ => by rw [hvars]⟩
    obtain ⟨σ', hadv, hσ'⟩ := hloop C _ σ hC hinvariant hσ.fits hσ
    refine ⟨σ', hadv, hσ'.mono ?_ rfl hadv.fits (fun _ _ => rfl) rfl⟩
    exact (hgrows.trans (hstraight.toGrows.trans hgrows')).body

/-- The spans are copied one behind the other. -/
theorem copies_spans (hsp : Supplies g v spans offset)
    (h : Succeeds (copySpans settings s.storage out spans offset) s.emitter u e') :
    Copies g out v s offset e' (offset + (spans.flatMap Span.cells).length) := by
  induction spans generalizing s offset with
  | nil =>
      obtain ⟨-, rfl⟩ := succeeds_pure.1 h
      exact .refl s
  | cons sp spans ih =>
      obtain ⟨_, e₁, hfirst, hrest⟩ := succeeds_bind.1 h
      have hcopies := copies_span hsp hfirst
      have hlen : offset + ((sp :: spans).flatMap Span.cells).length =
          offset + sp.length + (spans.flatMap Span.cells).length := by
        rw [List.flatMap_cons, List.length_append, Selection.length_cells_span, Nat.add_assoc]
      rw [hlen]
      exact hcopies.trans (ih (s := { s with emitter := e₁ }) hsp.tail hrest)

end Copies

end Lower

end Dataflow
