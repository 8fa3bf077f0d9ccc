import Dataflow.Proofs.Lower.Access

/-!
# Code for each element

Scattered inputs are gathered into buffers before a loop over their elements. Whether code for
each element is emitted in a loop or once for each of them, at run time it is run for one element
after the other, and what a run for one element carries to the next one holds in the end.
-/

namespace Dataflow

open Code (Context CountedLoop Store Emit Emitter Body StackBuffer ValueId Word)

namespace LowerState

structure Follows (os : List Outlet) (s s' : LowerState) : Prop where
  grows : s.emitter.Grows s'.emitter
  storage : ∀ p, p ∉ os.map (·.port) → s'.storage.find? p = s.storage.find? p
  stored : ∀ p st, s.storage.find? p = some st → s'.storage.find? p = some st
  orderly : s.Orderly → s'.Orderly
  suited : s.Suited os → s'.Suited os

variable {os : List Outlet} {s s' s'' : LowerState}

theorem Keeps.follows (h : s.Keeps os s') : s.Follows os s' :=
  ⟨h.straight.toGrows, h.storage, h.stored, h.orderly, h.suited⟩

theorem Follows.trans (h : s.Follows os s') (h' : s'.Follows os s'') : s.Follows os s'' where
  grows := h.grows.trans h'.grows
  storage p hp := (h'.storage p hp).trans (h.storage p hp)
  stored p st hst := h'.stored p st (h.stored p st hst)
  orderly hs := h'.orderly (h.orderly hs)
  suited hs := h'.suited (h.suited hs)

theorem Follows.of_grows {e : Emitter} (h : s.emitter.Grows e) :
    s.Follows os { s with emitter := e } :=
  ⟨h, fun _ _ => rfl, fun _ _ h => h, fun hs => hs.of_grows h fun _ _ hb => hb, fun hs => hs⟩

end LowerState

namespace Lower

section Range

variable {c : LowerContext} {os : List Outlet} {s s' : LowerState} {u : Unit} {f : Nat → Lower Unit}
  {n : Nat}

/-- The states between the steps of a sequence. -/
theorem lowers_range (h : Lowers c ((List.range n).forM f) s u s') :
    ∃ ss : Nat → LowerState, ss 0 = s ∧ ss n = s' ∧ ∀ i < n, Lowers c (f i) (ss i) () (ss (i + 1)) := by
  induction n generalizing s' with
  | zero =>
      obtain ⟨-, rfl⟩ := lowers_pure.1 h
      exact ⟨fun _ => s, rfl, rfl, fun i hi => absurd hi (Nat.not_lt_zero i)⟩
  | succ n ih =>
      rw [List.range_succ, List.forM_eq_forM, List.forM_append] at h
      obtain ⟨_, s₁, hfirst, h⟩ := lowers_bind.1 h
      obtain ⟨ss, hstart, hend, hsteps⟩ := ih hfirst
      obtain ⟨_, s₂, hlast, hnil⟩ := lowers_bind.1 h
      obtain ⟨-, rfl⟩ := lowers_pure.1 hnil
      refine ⟨fun i => if i ≤ n then ss i else s₂, by simpa using hstart, by simp, fun i hi => ?_⟩
      rcases Nat.lt_succ_iff_lt_or_eq.1 hi with hlt | rfl
      · simp only [Nat.le_of_lt hlt, Nat.succ_le_of_lt hlt, if_true]
        exact hsteps i hlt
      · simp only [Nat.le_refl, if_true, Nat.not_succ_le_self, if_false, hend]
        exact hlast

theorem keeps_of_steps {ss : Nat → LowerState}
    (hsteps : ∀ i < n, (ss i).Keeps os (ss (i + 1))) {i j : Nat} (hij : i ≤ j) (hj : j ≤ n) :
    (ss i).Keeps os (ss j) := by
  induction j, hij using Nat.le_induction with
  | base => exact .refl _
  | succ j _ ih => exact (ih (by omega)).trans (hsteps j (by omega))

end Range

structure Gathers (c : LowerContext) (s s' : LowerState) : Prop where
  straight : s.emitter.Straight s'.emitter
  storage : s'.storage = s.storage
  orderly : s.Orderly → s'.Orderly
  run : ∀ (C : Context) (g : Graph) (os : List Outlet) (inputs : List Values) (σ : Store),
    C.Covers s'.emitter → C.data.size < C.base → s.Orderly → Reads g c os inputs →
      Ready C g os inputs s σ → ∃ σ', C.Advances s.emitter.body s'.emitter.body σ σ' ∧
        σ'.vars = σ.vars ∧ Ready C g os inputs s' σ'

section Gather

variable {c : LowerContext} {s s' s'' : LowerState} {u : Unit} {i : Nat}

theorem Gathers.refl (s : LowerState) : Gathers c s s :=
  ⟨.refl _, rfl, fun h => h, fun _ _ _ _ σ _ _ _ _ h => ⟨σ, .refl h.fits, rfl, h⟩⟩

theorem Gathers.trans (h : Gathers c s s') (h' : Gathers c s' s'') : Gathers c s s'' where
  straight := h.straight.trans h'.straight
  storage := h'.storage.trans h.storage
  orderly hs := h'.orderly (h.orderly hs)
  run C g os inputs σ hC hbase hs hreads hr := by
    obtain ⟨σ₁, hadv, hvars, hr₁⟩ :=
      h.run C g os inputs σ (hC.of_grows h'.straight.toGrows) hbase hs hreads hr
    obtain ⟨σ₂, hadv', hvars', hr₂⟩ := h'.run C g os inputs σ₁ hC hbase (h.orderly hs) hreads hr₁
    exact ⟨σ₂, hadv.trans hadv', hvars'.trans hvars, hr₂⟩

def copyElement (i : Nat) (b : StackBuffer) (n : Nat) : Lower Unit := do
  let value ← inputAt i (.fixed n)
  let base ← emit (Emit.bufferAddress b)
  emit (Emit.store base n value)

theorem succeeds_gatherInput (h : Lowers c (gatherInput i) s u s') :
    s' = s ∨ ∃ l t b e s₂, s.gathered[i]?.join = none ∧ c.site.inlets[i]? = some l ∧
      l.selection.elemType? = some t ∧
      Succeeds (Emit.stackBuffer t.ty l.selection.size) s.emitter b e ∧
      Lowers c ((List.range l.selection.size).forM (copyElement i b)) { s with emitter := e } () s₂ ∧
      s' = { s₂ with gathered := s₂.gathered.set i (some b) } := by
  unfold gatherInput at h
  obtain ⟨s₀, s₁, hget, h⟩ := lowers_bind.1 h
  obtain ⟨rfl, rfl⟩ := lowers_get.1 hget
  split at h
  · exact Or.inl (lowers_pure.1 h).2.symm
  next hnone =>
  obtain ⟨contiguous, s₁, hcontiguous, h⟩ := lowers_bind.1 h
  have hs₁ : s₁ = s₀ := by
    simp only [inputIsContiguous, lowers_bind, lowers_inlet, lowers_pure] at hcontiguous
    obtain ⟨_, _, ⟨-, rfl⟩, -, rfl⟩ := hcontiguous
    rfl
  rw [hs₁] at h
  split at h
  · exact Or.inl (lowers_pure.1 h).2.symm
  simp only [lowers_bind, lowers_inputType, lowers_inputSize, lowers_emit, setGathered,
    lowers_modify] at h
  obtain ⟨t, _, ⟨l, hl, ht, rfl⟩, n, _, ⟨l', hl', rfl, rfl⟩, b, _, ⟨e, hb, rfl⟩, _, s₂, hcopy, rfl⟩ := h
  obtain rfl := Option.some.inj (hl.symm.trans hl')
  exact Or.inr ⟨l, t, b, e, s₂, Option.not_isSome_iff_eq_none.1 hnone, hl, ht, hb, hcopy, rfl⟩

theorem plain_copyElement (i : Nat) (b : StackBuffer) (n : Nat) : Plain (copyElement i b n) :=
  (Plain.inputAt _ _).bind fun _ => (Plain.emit (Emit.Frames.bufferAddress _)).bind fun _ =>
    Plain.emit (Emit.leaves_store _ _ _)

theorem plain_copyElements (i : Nat) (b : StackBuffer) {n : Nat} :
    Plain ((List.range n).forM (copyElement i b)) := .forM (plain_copyElement i b)

/-- The entry of a gathered input is set, if there is one. -/
theorem join_set_getElem? (buffers : List (Option StackBuffer)) (i j : Nat) (b : StackBuffer) :
    (buffers.set i (some b))[j]?.join =
      if j = i ∧ i < buffers.length then some b else buffers[j]?.join := by
  rw [List.getElem?_set]
  by_cases hj : i = j
  · subst hj
    by_cases hlt : i < buffers.length <;> simp [hlt]
  · simp [hj, Ne.symm hj]

section Run

variable {C : Context} {g : Graph} {os : List Outlet} {inputs : List Values} {σ : Store} {w : Values}
  {b : StackBuffer} {n : Nat}

theorem writes_copyElement (h : Lowers c (copyElement i b n) s u s') (hC : C.Covers s'.emitter)
    (hr : Ready C g os inputs s σ) (hreads : Reads g c os inputs) (hw : inputs[i]? = some w)
    {a : Scalar} (ha : w.scalars[n]? = some a)
    (hroom : C.Room (C.base + b.place.index) a.word.ty (n + 1)) :
    ∃ σ', C.Writes s.emitter.body s'.emitter.body σ σ' (C.base + b.place.index)
      (n * a.word.ty.size) a.word := by
  obtain ⟨v, s₁, hv, h⟩ := lowers_bind.1 h
  simp only [lowers_bind, lowers_emit] at h
  obtain ⟨base, _, ⟨e₂, hbase, rfl⟩, e₃, hstore, rfl⟩ := h
  have haddress := Emit.Linear.straight (Emit.Frames.bufferAddress _) hbase
  have hC₂ := hC.of_grows (Emit.Linear.straight (Emit.leaves_store _ _ _) hstore).toGrows
  obtain ⟨σ₁, hq₁, hv₁⟩ :=
    yields_inputAt hv (hC₂.of_grows haddress.toGrows) hr hreads hw ha rfl
  obtain ⟨σ₂, hq₂, hbase₂⟩ := Context.yields_bufferAddress hbase hC₂ hq₁.fits
  obtain ⟨σ₃, hwrites⟩ := Context.writes_store hstore hC hq₂.fits hroom hbase₂
    (hq₂.carries haddress.body hv₁)
  exact ⟨σ₃, .of_quiet (hq₁.trans hq₂) hwrites⟩

/-- The buffer is filled one element after the other. -/
theorem exists_filled {ss : Nat → LowerState}
    (hsteps : ∀ k < n, Lowers c (copyElement i b k) (ss k) () (ss (k + 1)))
    (hC : C.Covers (ss n).emitter) (hr : Ready C g os inputs (ss 0) σ)
    (hreads : Reads g c os inputs) (hw : inputs[i]? = some w)
    (hguard : ¬ Guarded C os (ss 0) (C.base + b.place.index))
    (hroom : C.Room (C.base + b.place.index) w.elemType.ty n) (hn : n ≤ w.length) :
    ∃ σ', C.Advances (ss 0).emitter.body (ss n).emitter.body σ σ' ∧ σ'.vars = σ.vars ∧
      Ready C g os inputs (ss n) σ' ∧ σ'.memory.Filled (C.base + b.place.index) w n := by
  have hkeeps : ∀ k < n, (ss k).Keeps os (ss (k + 1)) := by
    intro k hk
    obtain ⟨e, he, hstraight⟩ := (plain_copyElement i b k).of_lowers (hsteps k hk)
    rw [he]
    exact .of_straight hstraight
  induction n with
  | zero => exact ⟨σ, .refl hr.fits, rfl, hr, Code.Memory.filled_zero⟩
  | succ n ih =>
      have hlast := hkeeps n (Nat.lt_succ_self n)
      obtain ⟨σ₁, hadv, hvars, hr₁, hfilled⟩ := ih (fun k hk => hsteps k (by omega))
        (hC.of_grows hlast.straight.toGrows) (hroom.mono (by omega)) (by omega)
        fun k hk => hkeeps k (by omega)
      obtain ⟨a, ha⟩ : ∃ a, w.scalars[n]? = some a :=
        ⟨_, List.getElem?_eq_getElem (by simpa using hn)⟩
      have hty : a.word.ty = w.elemType.ty := by
        rw [Scalar.ty_word, Values.elemType_of_mem_scalars (List.mem_of_getElem? ha)]
      obtain ⟨σ₂, hwrites⟩ := writes_copyElement (hsteps n (Nat.lt_succ_self n)) hC hr₁ hreads hw
        ha (hty ▸ hroom)
      have hguard' : ¬ Guarded C os (ss n) (C.base + b.place.index) := by
        rwa [guarded_iff_of_keeps (keeps_of_steps hkeeps (Nat.zero_le n) (Nat.le_succ n))]
      exact ⟨σ₂, hadv.trans hwrites.toAdvances, hwrites.vars.trans hvars,
        hr₁.of_writes hlast hwrites hguard', hwrites.filled hr₁.fits (hty ▸ hroom) hfilled ha⟩

end Run

theorem Reads.exists_input {g : Graph} {os : List Outlet} {inputs : List Values} {l : Inlet}
    (h : Reads g c os inputs) (hl : c.site.inlets[i]? = some l) : ∃ w, inputs[i]? = some w ∧
      w.length = l.selection.size ∧ ∀ t, l.selection.elemType? = some t → w.elemType = t := by
  obtain ⟨hi, rfl⟩ := List.getElem?_eq_some_iff.1 hl
  have hi' : i < inputs.length := h.gathers.length_eq ▸ hi
  have hfit := h.fits _ (List.getElem_mem hi)
  have hgather := h.gathers.get hi hi'
  have hlen := (hgather.cells hfit).length_eq
  refine ⟨_, List.getElem?_eq_getElem hi', ?_, fun t ht => hgather.elemType hfit ht⟩
  simpa using hlen.symm

theorem gathers_gatherInput (h : Lowers c (gatherInput i) s u s') : Gathers c s s' := by
  rcases succeeds_gatherInput h with rfl | ⟨l, t, b, e, s₂, -, hl, ht, hb, hcopies, rfl⟩
  · exact .refl _
  obtain ⟨hsilent, hty, hlen, hheld, hfresh⟩ := Emit.succeeds_stackBuffer hb
  obtain ⟨e', he', hstraight⟩ := (plain_copyElements i b).of_lowers hcopies
  obtain ⟨ss, hstart, rfl, hsteps⟩ := lowers_range hcopies
  rw [he']
  refine ⟨hsilent.straight.trans hstraight, rfl, fun hs => ?_, fun C g os inputs σ hC hbase hs
    hreads hr => ?_⟩
  · refine hs.add (hsilent.toGrows.trans hstraight.toGrows) (w := .inr i)
      (hstraight.held b (hheld hs.tidy)) hfresh fun w k hk => ?_
    cases w with
    | inl p => exact Or.inr hk
    | inr j =>
        have hk' : (s.gathered.set i (some b))[j]?.join = some k := hk
        rw [join_set_getElem?] at hk'
        split at hk'
        case isTrue hj => exact Or.inl ⟨by rw [hj.1], (Option.some.inj hk').symm⟩
        case isFalse => exact Or.inr hk'
  · obtain ⟨w, hw, hwlen, hwtype⟩ := Reads.exists_input hreads hl
    have hC₁ := hC.of_grows hstraight.toGrows
    have hs₁ : LowerState.Orderly { s with emitter := e } :=
      hs.of_grows hsilent.toGrows fun _ _ hk => hk
    have hr₁ : Ready C g os inputs (ss 0) σ := by
      rw [hstart]
      exact hr.of_quiet (.of_straight hsilent.straight) (.of_silent hsilent hr.fits)
    have hguard : ¬ Guarded C os (ss 0) (C.base + b.place.index) := by
      rw [hstart]
      exact not_guarded hbase hs₁ (hheld hs.tidy) fun w k _ hk => hfresh k (hs.held w k hk)
    have hroom : C.Room (C.base + b.place.index) w.elemType.ty l.selection.size := by
      rw [hwtype t ht, ← hty, ← hlen]
      exact room_of_held hC₁ (hheld hs.tidy) hbase
    obtain ⟨σ', hadv, hvars, hr', hfilled⟩ := exists_filled hsteps (he' ▸ hC) hr₁ hreads hw hguard
      hroom hwlen.ge
    rw [hstart, he'] at hadv
    rw [he'] at hr'
    refine ⟨σ', (Context.Quiet.of_silent hsilent hr.fits).toAdvances.trans hadv, hvars,
      hr'.fits, hr'.stored, fun j k v hk hv => ?_⟩
    have hk' : (s.gathered.set i (some b))[j]?.join = some k := hk
    rw [join_set_getElem?] at hk'
    split at hk'
    case isTrue hj =>
      obtain rfl := Option.some.inj hk'
      rw [hj.1] at hv
      obtain rfl := Option.some.inj (hw.symm.trans hv)
      rw [← hwlen] at hfilled
      exact hfilled.bears
    case isFalse => exact hr'.gathered j k v hk' hv

theorem gathers_gatherInputs (h : Lowers c gatherInputs s u s') : Gathers c s s' := by
  obtain ⟨_, _, hsite, h⟩ := lowers_bind.1 h
  obtain ⟨rfl, rfl⟩ := lowers_site.1 hsite
  obtain ⟨ss, rfl, rfl, hsteps⟩ := lowers_range h
  have hall : ∀ k ≤ c.site.inlets.length, Gathers c (ss 0) (ss k) := by
    intro k hk
    induction k with
    | zero => exact .refl _
    | succ k ih => exact (ih (by omega)).trans (gathers_gatherInput (hsteps k hk))
  exact hall _ (Nat.le_refl _)

end Gather

section ForEach

variable {c : LowerContext} {s s' : LowerState} {u : Unit} {os : List Outlet} {n : Nat}
  {body : Position → Lower Unit}

theorem succeeds_forEach (h : Lowers c (forEach n body) s u s') :
    Lowers c ((List.range n).forM fun i => body (.fixed i)) s () s' ∨
    n < 2 ^ 31 ∧ ∃ s₁ l e₂ i e₃ s₃ l' e₄, Lowers c gatherInputs s () s₁ ∧
      Succeeds (CountedLoop.idle.begin (Int32.ofNat n)) s₁.emitter l e₂ ∧
      Succeeds l.counter e₂ i e₃ ∧
      Lowers c (body (.computed i)) { s₁ with emitter := e₃ } () s₃ ∧
      Succeeds l.finish s₃.emitter l' e₄ ∧ s' = { s₃ with emitter := e₄ } := by
  obtain ⟨t, _, hsettings, h⟩ := lowers_bind.1 h
  obtain ⟨-, rfl⟩ := lowers_settings.1 hsettings
  split at h
  · exact Or.inl h
  obtain ⟨_, s₁, hgather, h⟩ := lowers_bind.1 h
  obtain ⟨hn, h⟩ := lowers_refuse.1 h
  simp only [lowers_bind, lowers_emit, lowers_pure] at h
  obtain ⟨l, _, ⟨e₂, hbegin, rfl⟩, i, _, ⟨e₃, hcounter, rfl⟩, _, s₃, hbody, l', _,
    ⟨e₄, hfinish, rfl⟩, -, rfl⟩ := h
  exact Or.inr ⟨by omega, s₁, l, e₂, i, e₃, s₃, l', e₄, hgather, hbegin, hcounter, hbody, hfinish,
    rfl⟩

/-- With loops unrolled the code is emitted for one element after the other. -/
theorem lowers_unrolled (h : Lowers c (forEach n body) s u s')
    (hunroll : s.emitter.settings.unroll = true) :
    Lowers c ((List.range n).forM fun i => body (.fixed i)) s u s' := by
  obtain ⟨_, _, hsettings, h⟩ := lowers_bind.1 h
  obtain ⟨rfl, rfl⟩ := lowers_settings.1 hsettings
  rwa [if_pos (by simp [hunroll])] at h

theorem follows_forEach (h : Lowers c (forEach n body) s u s') (hs : s.Orderly)
    (hkeeps : ∀ pos s₁ s₂, Lowers c (body pos) s₁ () s₂ → s₁.Keeps os s₂) : s.Follows os s' := by
  rcases succeeds_forEach h with h | ⟨hn, s₁, l, e₂, i, e₃, s₃, l', e₄, hgather, hbegin, hcounter,
    hbody, hfinish, rfl⟩
  · obtain ⟨ss, rfl, rfl, hsteps⟩ := lowers_range h
    exact (keeps_of_steps (fun k hk => hkeeps _ _ _ (hsteps k hk)) (Nat.zero_le n)
      (Nat.le_refl n)).follows
  · have hg := gathers_gatherInputs hgather
    have hbody' := hkeeps _ _ _ hbody
    obtain ⟨hgrows, hgrows', -⟩ :=
      CountedLoop.advances_loop hbegin hcounter hbody'.straight hfinish hn
    have hgathers : s.Follows os s₁ := by
      refine ⟨hg.straight.toGrows, fun p _ => by rw [hg.storage], fun p st hst => by rwa [hg.storage],
        hg.orderly, fun hsuited o ho st hst => hsuited o ho st (hg.storage ▸ hst)⟩
    exact hgathers.trans ((LowerState.Follows.of_grows hgrows).trans
      (hbody'.follows.trans (.of_grows hgrows')))

/-- What is emitted for each element carries from one element to the next one. Between the
elements nothing changes but scratch variables. -/
structure Carrying (C : Context) (g : Graph) (c : LowerContext) (os : List Outlet) (inputs : List Values)
    (s s' : LowerState) (body : Position → Lower Unit) (n : Nat) (J : Nat → Store → Prop) :
    Prop where
  keeps : ∀ pos s₁ s₂, Lowers c (body pos) s₁ () s₂ → s₁.Keeps os s₂
  stable : ∀ k σ σ' e, s.emitter.Grows e → e.Undisturbed σ σ' → J k σ → J k σ'
  step : ∀ k < n, ∀ pos s₁ s₂ σ, Lowers c (body pos) s₁ () s₂ → C.Covers s₂.emitter →
    s.emitter.Grows s₁.emitter → s₁.Orderly → s₁.Suited os →
    (∀ p st, s₂.storage.find? p = some st → s'.storage.find? p = some st) →
    Ready C g os inputs s₁ σ → pos.Is s₁.emitter.body σ k → J k σ →
    ∃ σ', C.Advances s₁.emitter.body s₂.emitter.body σ σ' ∧
      (∀ r, Guarded C os s₁ r → σ'.memory[r]? = σ.memory[r]?) ∧
      (∀ x, ¬ s.emitter.Own x → x.index < s₁.emitter.body.varTypes.size →
        σ'.vars[x.index]? = σ.vars[x.index]?) ∧ J (k + 1) σ'

variable {C : Context} {g : Graph} {inputs : List Values} {J : Nat → Store → Prop} {σ : Store}

theorem Carrying.unrolled (hJ : Carrying C g c os inputs s s' body n J)
    (h : Lowers c ((List.range n).forM fun i => body (.fixed i)) s () s')
    (hC : C.Covers s'.emitter) (hs : s.Orderly) (hsuited : s.Suited os)
    (hr : Ready C g os inputs s σ) (h0 : J 0 σ) :
    ∃ σ', C.Advances s.emitter.body s'.emitter.body σ σ' ∧ Ready C g os inputs s' σ' ∧ J n σ' := by
  obtain ⟨ss, hstart, hend, hsteps⟩ := lowers_range h
  have hkeeps := fun k hk => hJ.keeps _ _ _ (hsteps k hk)
  have hall : ∀ k ≤ n, ∃ σ', C.Advances (ss 0).emitter.body (ss k).emitter.body σ σ' ∧
      Ready C g os inputs (ss k) σ' ∧ J k σ' := by
    intro k hk
    induction k with
    | zero => exact ⟨σ, .refl hr.fits, hstart ▸ hr, h0⟩
    | succ k ih =>
        obtain ⟨σ₁, hadv, hr₁, hJ₁⟩ := ih (by omega)
        have hbefore := keeps_of_steps hkeeps (Nat.zero_le k) (Nat.le_of_lt hk)
        have hafter := keeps_of_steps hkeeps hk (Nat.le_refl n)
        rw [hstart] at hbefore
        rw [hend] at hafter
        obtain ⟨σ₂, hadv', hguard, -, hJ₂⟩ := hJ.step k hk _ _ _ σ₁ (hsteps k hk)
          (hC.of_grows hafter.straight.toGrows) hbefore.straight.toGrows (hbefore.orderly hs)
          (hbefore.suited hsuited) hafter.stored hr₁ rfl hJ₁
        have hk' := hkeeps k hk
        exact ⟨σ₂, hadv.trans hadv', hr₁.mono hk'.straight.body hk'.storage hk'.gathered hadv'.fits
          hadv'.values hguard, hJ₂⟩
  obtain ⟨σ', hadv, hr', hJ'⟩ := hall n (Nat.le_refl n)
  rw [hstart, hend] at hadv
  rw [hend] at hr'
  exact ⟨σ', hadv, hr', hJ'⟩

/-- What the body of a loop carries from round to round. -/
theorem Carrying.invariant (hJ : Carrying C g c os inputs s s' body n J) {s₁ s₃ : LowerState}
    {e₃ : Emitter} {i : ValueId}
    (hbody : Lowers c (body (.computed i)) { s₁ with emitter := e₃ } () s₃)
    (hC : C.Covers s₃.emitter) (hgrows : s.emitter.Grows s₁.emitter)
    (hgrows' : s₁.emitter.Grows e₃) (hs : s₁.Orderly) (hsuited : s₁.Suited os) (hn : n < 2 ^ 31)
    (hfinal : ∀ p st, s₃.storage.find? p = some st → s'.storage.find? p = some st) :
    CountedLoop.Invariant C s₁.emitter e₃ s₃.emitter i n
      fun k σ => Ready C g os inputs s₁ σ ∧ J k σ where
  stable k σ σ' hI halike hσ' := by
    refine ⟨hI.1.mono (.refl _) (fun _ _ => rfl) rfl hσ' halike.values fun r _ => ?_,
      hJ.stable k σ σ' _ hgrows halike hI.2⟩
    rw [halike.memory]
  round k hk σ hσ hI hi := by
    obtain ⟨hr, hJk⟩ := hI
    have hr₁ : Ready C g os inputs { s₁ with emitter := e₃ } σ :=
      hr.mono hgrows'.body (fun _ _ => rfl) rfl hσ (fun _ _ => rfl) fun _ _ => rfl
    have hs₁ : LowerState.Orderly { s₁ with emitter := e₃ } :=
      hs.of_grows hgrows' fun _ _ hb => hb
    obtain ⟨σ', hadv, hguard, hvars, hJ'⟩ := hJ.step k hk _ _ _ σ hbody hC (hgrows.trans hgrows')
      hs₁ hsuited hfinal hr₁ ⟨by omega, hi⟩ hJk
    refine ⟨σ', hadv, ⟨hr.mono (.refl _) (fun _ _ => rfl) rfl hadv.fits (fun j hj => ?_) hguard,
      hJ'⟩, fun x hx => hvars x fun hown => hx (hown.mono hgrows)⟩
    exact hadv.values j (hj.trans_le hgrows'.body.valueTypes.size_le)

/-- What is carried from element to element holds in the end. -/
theorem advances_forEach (h : Lowers c (forEach n body) s u s')
    (hJ : Carrying C g c os inputs s s' body n J) (hC : C.Covers s'.emitter)
    (hbase : C.data.size < C.base) (hs : s.Orderly) (hsuited : s.Suited os)
    (hreads : Reads g c os inputs) (hr : Ready C g os inputs s σ)
    (h0 : ∀ σ', σ'.vars = σ.vars →
      (∀ i < s.emitter.body.valueTypes.size, σ'.values[i]? = σ.values[i]?) → J 0 σ') :
    ∃ σ', C.Advances s.emitter.body s'.emitter.body σ σ' ∧ Ready C g os inputs s' σ' ∧ J n σ' := by
  rcases succeeds_forEach h with h | ⟨hn, s₁, l, e₂, i, e₃, s₃, l', e₄, hgather, hbegin, hcounter,
    hbody, hfinish, rfl⟩
  · exact hJ.unrolled h hC hs hsuited hr (h0 σ rfl fun _ _ => rfl)
  · have hg := gathers_gatherInputs hgather
    have hkeeps := hJ.keeps _ _ _ hbody
    obtain ⟨hgrows, hgrows', hloop⟩ := CountedLoop.advances_loop hbegin hcounter hkeeps.straight
      hfinish hn
    have hC₃ : C.Covers s₃.emitter := hC.of_grows hgrows'
    have hC₁ : C.Covers s₁.emitter := (hC₃.of_grows hkeeps.straight.toGrows).of_grows hgrows
    obtain ⟨σ₁, hadv, hvars, hr₁⟩ := hg.run C g os inputs σ hC₁ hbase hs hreads hr
    have hinvariant := hJ.invariant hbody hC₃ hg.straight.toGrows hgrows
      (hg.orderly hs) (fun o ho st hst => hsuited o ho st (hg.storage ▸ hst)) hn fun p st hst => hst
    obtain ⟨σ₂, hadv', hr₂, hJ₂⟩ :=
      hloop C _ σ₁ hC hinvariant hadv.fits ⟨hr₁, h0 σ₁ hvars hadv.values⟩
    refine ⟨σ₂, hadv.trans hadv', ⟨hadv'.fits, fun p hp => ?_, fun j b v hb hv => ?_⟩, hJ₂⟩
    · refine (hr₂.stored p hp).mono ?_ (fun st hst => ?_) (fun _ _ => rfl) fun _ _ _ => rfl
      · exact (hgrows.trans (hkeeps.straight.toGrows.trans hgrows')).body
      · exact (hkeeps.storage p hp).symm.trans hst
    · have hb' : s₃.gathered[j]?.join = some b := hb
      rw [hkeeps.gathered] at hb'
      exact hr₂.gathered j b v hb' hv

end ForEach

end Lower

end Dataflow
