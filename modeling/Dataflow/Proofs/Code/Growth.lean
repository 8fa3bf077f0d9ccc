import Dataflow.Proofs.Code.Operations
import Dataflow.Proofs.Code.Slot

/-!
# What emission keeps

Whatever is emitted, the open body grows, declarations stay, and buffers that are held stay held:
their slots are in use and their places in the frame are their own. Straight-line code is emitted
into the current block alone. Both are properties of operations that sequences of operations
inherit.
-/

namespace Dataflow.Code

namespace Declarations

/-- Every helper that can be called waits for its body, as a function of its own. -/
structure Sound (d : Declarations) : Prop where
  nonempty : 0 < d.functions.size
  asked : ∀ op t id, d.helpers.find? (op, t) = some id → ⟨id, op, t⟩ ∈ d.pending
  declared : ∀ r ∈ d.pending, 0 < r.function.index ∧ ∃ name,
    d.functions[r.function.index]? = some ⟨name, List.replicate r.op.arity r.ty, some r.ty, false⟩
  distinct : (d.pending.map (·.function)).Nodup

structure Extends (d d' : Declarations) : Prop where
  helpers : ∀ k id, d.helpers.find? k = some id → d'.helpers.find? k = some id
  functions : Prefix d.functions d'.functions
  data : Prefix d.data d'.data
  sound : d.Sound → d'.Sound

theorem Extends.refl (d : Declarations) : d.Extends d :=
  ⟨fun _ _ h => h, .refl _, .refl _, fun h => h⟩

theorem Extends.trans {d d' d'' : Declarations} (h : d.Extends d') (h' : d'.Extends d'') :
    d.Extends d'' :=
  ⟨fun k id hk => h'.helpers k id (h.helpers k id hk), h.functions.trans h'.functions,
    h.data.trans h'.data, fun hs => h'.sound (h.sound hs)⟩

theorem declare_eq_ok {d d' : Declarations} {s : Signature} {id : FunctionId}
    (h : d.declare s = .ok (id, d')) :
    id = ⟨d.functions.size⟩ ∧ d' = { d with functions := d.functions.push s } := by
  unfold declare at h
  split at h
  · cases h
  · obtain ⟨rfl, rfl⟩ := Prod.mk.inj (Except.ok.inj h)
    exact ⟨rfl, rfl⟩

theorem find?_of_declare {d : Declarations} {s : Signature} {r : FunctionId × Declarations}
    (h : d.declare s = .ok r) : d.find? s.name = none := by
  unfold declare at h
  split at h
  · cases h
  · next hfind => exact Option.not_isSome_iff_eq_none.1 hfind

/-- A helper is there already, or it is declared and waits for its body. -/
theorem helper_cases {d d' : Declarations} {op : Operator} {t : Ty} {id : FunctionId}
    (h : d.helper op t = .ok (id, d')) :
    d.helpers.find? (op, t) = some id ∧ d' = d ∨
      (d.helpers.find? (op, t) = none ∧ d.find? (helperName op t) = none) ∧
        id = ⟨d.functions.size⟩ ∧ d' = { d with
          functions := d.functions.push
            ⟨helperName op t, List.replicate op.arity t, some t, false⟩
          helpers := d.helpers.insert (op, t) id
          pending := d.pending ++ [⟨id, op, t⟩] } := by
  unfold helper at h
  cases hfind : d.helpers.find? (op, t) with
  | some id' =>
      rw [hfind] at h
      obtain ⟨rfl, rfl⟩ := Prod.mk.inj (Except.ok.inj h)
      exact .inl ⟨rfl, rfl⟩
  | none =>
      rw [hfind] at h
      obtain ⟨⟨id', d₁⟩, hdecl, h⟩ := bind_eq_ok_iff.1 h
      have hname := find?_of_declare hdecl
      obtain ⟨rfl, rfl⟩ := declare_eq_ok hdecl
      obtain ⟨rfl, rfl⟩ := Prod.mk.inj (Except.ok.inj h)
      exact .inr ⟨⟨rfl, hname⟩, rfl, rfl⟩

theorem helper_eq_ok {d d' : Declarations} {op : Operator} {t : Ty} {id : FunctionId}
    (h : d.helper op t = .ok (id, d')) :
    d'.helpers.find? (op, t) = some id ∧ d.Extends d' := by
  obtain ⟨hfind, rfl⟩ | ⟨⟨hfind, -⟩, rfl, rfl⟩ := helper_cases h
  · exact ⟨hfind, .refl d'⟩
  refine ⟨?_, ?_, .push _ _, .refl _, fun hs => ⟨?_, ?_, ?_, ?_⟩⟩
  · rw [Table.find?_insert, if_pos rfl]
  · intro k id hk
    rw [Table.find?_insert, if_neg, hk]
    rintro rfl
    rw [hfind] at hk
    cases hk
  · simp
  · intro op' t' id' hid
    rw [Table.find?_insert] at hid
    split at hid
    case isTrue hkey =>
      obtain ⟨rfl, rfl⟩ := Prod.mk.inj hkey
      obtain rfl := Option.some.inj hid
      simp
    case isFalse => exact List.mem_append_left _ (hs.asked op' t' id' hid)
  · intro r hr
    rcases List.mem_append.1 hr with hr | hr
    · obtain ⟨hpos, name, hname⟩ := hs.declared r hr
      exact ⟨hpos, name, Prefix.push _ _ _ _ hname⟩
    · obtain rfl := List.mem_singleton.1 hr
      exact ⟨hs.nonempty, _, Array.getElem?_push_size⟩
  · rw [List.map_append, List.nodup_append]
    refine ⟨hs.distinct, by simp, ?_⟩
    rintro a ha b hb rfl
    obtain ⟨r, hr, rfl⟩ := List.mem_map.1 ha
    obtain ⟨-, name, hname⟩ := hs.declared r hr
    obtain hb := List.mem_singleton.1 hb
    rw [hb, Array.getElem?_eq_none (Nat.le_refl _)] at hname
    cases hname

theorem extends_addDatum (d : Declarations) (datum : Datum) : d.Extends (d.addDatum datum).2 :=
  ⟨fun _ _ h => h, .refl _, .push _ _, fun h => ⟨h.nonempty, h.asked, h.declared, h.distinct⟩⟩

end Declarations

namespace Emitter

/-- What the places of buffers and the variables of scratch slots refer to. -/
structure Tidy (e : Emitter) : Prop where
  pool : e.pools.buffer.Sound
  scope : e.pools.buffer.scope = .buffer
  place : ∀ i p, e.body.bufferPlaces.find? i = some p → p.index < e.body.stack.size
  injective : ∀ i j p, e.body.bufferPlaces.find? i = some p →
    e.body.bufferPlaces.find? j = some p → i = j
  scratch : ∀ i x, e.body.scratchVars.find? i = some x → x.index < e.body.varTypes.size
  current : ∃ k, e.body.blocks[e.body.current.index]? = some k

structure Held (e : Emitter) (b : StackBuffer) : Prop where
  allocated : e.pools.buffer.isAllocated b.slot = true
  place : e.body.bufferPlaces.find? b.slot.index = some b.place
  room : ∃ n, e.body.stack[b.place.index]? = some n ∧ b.length * b.ty.size ≤ n

theorem Held.place_injective {e : Emitter} {b b' : StackBuffer} (he : e.Tidy) (h : e.Held b)
    (h' : e.Held b') (hplace : b.place = b'.place) : b.slot = b'.slot := by
  have hindex := he.injective _ _ _ h.place (hplace ▸ h'.place)
  have hscope := (Pool.isAllocated_iff.1 h.allocated).1
  have hscope' := (Pool.isAllocated_iff.1 h'.allocated).1
  exact Slot.mk.injEq _ _ _ _ ▸ ⟨hscope.trans hscope'.symm, hindex⟩

structure Grows (e e' : Emitter) : Prop where
  body : e.body.Within e'.body
  declarations : e.declarations.Extends e'.declarations
  settings : e'.settings = e.settings
  tidy : e.Tidy → e'.Tidy
  held : ∀ b, e.Held b → e'.Held b
  scratch : ∀ i x, e'.body.scratchVars.find? i = some x →
    e.body.scratchVars.find? i = some x ∨ e.body.varTypes.size ≤ x.index

theorem Grows.refl (e : Emitter) : e.Grows e :=
  ⟨.refl _, .refl _, rfl, fun h => h, fun _ h => h, fun _ _ h => Or.inl h⟩

theorem Grows.trans {e e' e'' : Emitter} (h : e.Grows e') (h' : e'.Grows e'') : e.Grows e'' where
  body := h.body.trans h'.body
  declarations := h.declarations.trans h'.declarations
  settings := h'.settings.trans h.settings
  tidy he := h'.tidy (h.tidy he)
  held b hb := h'.held b (h.held b hb)
  scratch i x hx := by
    rcases h'.scratch i x hx with hx | hle
    · exact h.scratch i x hx
    · exact Or.inr (h.body.varTypes.size_le.trans hle)

structure Straight (e e' : Emitter) : Prop extends Grows e e' where
  current : e'.body.current = e.body.current
  blocks : ∀ i, i ≠ e.body.current.index → e'.body.blocks[i]? = e.body.blocks[i]?

theorem Straight.refl (e : Emitter) : e.Straight e := ⟨.refl e, rfl, fun _ _ => rfl⟩

theorem Straight.trans {e e' e'' : Emitter} (h : e.Straight e') (h' : e'.Straight e'') :
    e.Straight e'' where
  toGrows := h.toGrows.trans h'.toGrows
  current := h'.current.trans h.current
  blocks i hi := (h'.blocks i (h.current ▸ hi)).trans (h.blocks i hi)

structure Silent (e e' : Emitter) : Prop extends Grows e e' where
  current : e'.body.current = e.body.current
  blocks : e'.body.blocks = e.body.blocks

theorem Silent.refl (e : Emitter) : e.Silent e := ⟨.refl e, rfl, rfl⟩

theorem Silent.trans {e e' e'' : Emitter} (h : e.Silent e') (h' : e'.Silent e'') :
    e.Silent e'' where
  toGrows := h.toGrows.trans h'.toGrows
  current := h'.current.trans h.current
  blocks := h'.blocks.trans h.blocks

theorem Silent.straight {e e' : Emitter} (h : e.Silent e') : e.Straight e' :=
  ⟨h.toGrows, h.current, fun _ _ => by rw [h.blocks]⟩

instance : Std.Refl Grows := ⟨.refl⟩

instance : IsTrans Emitter Grows := ⟨fun _ _ _ => .trans⟩

instance : Std.Refl Straight := ⟨.refl⟩

instance : IsTrans Emitter Straight := ⟨fun _ _ _ => .trans⟩

/-- A body that grows and keeps its places and scratch variables. -/
theorem Grows.of_body {e : Emitter} {b : Body} (hb : e.body.Within b)
    (hcurrent : (∃ k, b.blocks[e.body.current.index]? = some k) →
      ∃ k, b.blocks[b.current.index]? = some k)
    (hplaces : b.bufferPlaces = e.body.bufferPlaces)
    (hscratch : b.scratchVars = e.body.scratchVars) : e.Grows { e with body := b } where
  body := hb
  declarations := .refl _
  settings := rfl
  tidy he := by
    obtain ⟨k, hk⟩ := he.current
    obtain ⟨k', hk', -⟩ := hb.blocks _ k hk
    refine ⟨he.pool, he.scope, fun i p hp => ?_, fun i j p hi hj => ?_, fun i x hx => ?_,
      hcurrent ⟨k', hk'⟩⟩
    · exact (he.place i p (hplaces ▸ hp)).trans_le hb.stack.size_le
    · exact he.injective i j p (hplaces ▸ hi) (hplaces ▸ hj)
    · exact (he.scratch i x (hscratch ▸ hx)).trans_le hb.varTypes.size_le
  held k hk := by
    obtain ⟨n, hn, hfit⟩ := hk.room
    exact ⟨hk.allocated, hplaces.symm ▸ hk.place, n, hb.stack _ _ hn, hfit⟩
  scratch i x hx := Or.inl (by rwa [← hscratch])

/-- The pools change in a scope other than that of buffers. -/
theorem Grows.of_pools {e : Emitter} {ps : Pools} (h : ps.buffer = e.pools.buffer) :
    e.Grows { e with pools := ps } where
  body := .refl _
  declarations := .refl _
  settings := rfl
  tidy he := ⟨h ▸ he.pool, h ▸ he.scope, he.place, he.injective, he.scratch, he.current⟩
  held _ hk := ⟨h ▸ hk.allocated, hk.place, hk.room⟩
  scratch _ _ hx := Or.inl hx

theorem Grows.of_declarations {e : Emitter} {d : Declarations} (h : e.declarations.Extends d) :
    e.Grows { e with declarations := d } where
  body := .refl _
  declarations := h
  settings := rfl
  tidy he := ⟨he.pool, he.scope, he.place, he.injective, he.scratch, he.current⟩
  held _ hk := ⟨hk.allocated, hk.place, hk.room⟩
  scratch _ _ hx := Or.inl hx

end Emitter

namespace Emit

variable {α β : Type}

abbrev Linear (m : Emit α) : Prop := Leaves Emitter.Straight m

theorem Linear.straight {m : Emit α} {e e' : Emitter} {a : α} (hm : m.Linear)
    (h : Succeeds m e a e') : e.Straight e' := hm.of_succeeds h

theorem straight_push (i : Instr) : (push i).Linear := by
  refine .of_runs (fun e u e' h => ?_) fun e f e' h => (fails_push.1 h).2 ▸ .refl e
  obtain ⟨b, hb, rfl⟩ := succeeds_push.1 h
  have hw := Body.within_push hb
  obtain ⟨-, rfl⟩ := Body.push_eq_ok_iff.1 hb
  refine ⟨.of_body hw id rfl rfl, rfl, fun j hj => ?_⟩
  exact (Array.getElem?_modify ..).trans (if_neg (Ne.symm hj))

theorem straight_define (t : Ty) (instr : ValueId → Instr) : (define t instr).Linear :=
  .bind (fun e => ⟨.of_body (e.body.within_newValue t) id rfl rfl, rfl, fun _ _ => rfl⟩)
    fun _ => (straight_push _).bind fun _ => .pure _

section Silent

variable {e e' : Emitter}

theorem silent_newVar {t : Ty} {x : VarId} (h : Succeeds (newVar t) e x e') : e.Silent e' := by
  obtain ⟨-, rfl⟩ := succeeds_newVar.1 h
  exact ⟨.of_body (e.body.within_newVar t) id rfl rfl, rfl, rfl⟩

theorem silent_describe (e : Emitter) (text : String) : e.Silent
    { e with body := { e.body with locations := e.body.locations.push text } } := by
  refine ⟨.of_body ?_ id rfl rfl, rfl, rfl⟩
  exact ⟨rfl, rfl, fun _ k hk => ⟨k, hk, .refl k⟩, .refl _, .refl _, .refl _⟩

end Silent

section Slots

variable {e e' : Emitter} {t : Ty} {slot : Slot}

theorem succeeds_bufferPlace {bytes : Nat} {p : StackId}
    (h : Succeeds (bufferPlace slot bytes) e p e') :
    (e' = e ∧ e.body.bufferPlaces.find? slot.index = some p ∧
      bytes ≤ (e.body.stack[p.index]?).getD 0) ∨
    p = ⟨e.body.stack.size⟩ ∧ e' = { e with body := { (e.body.newPlace bytes).2 with
      bufferPlaces := e.body.bufferPlaces.insert slot.index p } } := by
  unfold bufferPlace at h
  obtain ⟨b, _, hb, h⟩ := succeeds_bind.1 h
  obtain ⟨rfl, rfl⟩ := succeeds_body.1 hb
  have hnew : Succeeds (do
      setBody { (e.body.newPlace bytes).2 with
        bufferPlaces := e.body.bufferPlaces.insert slot.index (e.body.newPlace bytes).1 }
      return (e.body.newPlace bytes).1) e p e' →
      p = ⟨e.body.stack.size⟩ ∧ e' = { e with body := { (e.body.newPlace bytes).2 with
        bufferPlaces := e.body.bufferPlaces.insert slot.index p } } := by
    intro h
    obtain ⟨_, _, hset, hp⟩ := succeeds_bind.1 h
    obtain ⟨rfl, rfl⟩ := succeeds_pure.1 hp
    exact ⟨rfl, (succeeds_setBody.1 hset).symm⟩
  cases hfind : e.body.bufferPlaces.find? slot.index with
  | none =>
      rw [hfind] at h
      exact Or.inr (hnew h)
  | some q =>
      rw [hfind] at h
      dsimp only at h
      split at h
      case isTrue hle =>
        obtain ⟨rfl, rfl⟩ := succeeds_pure.1 h
        exact Or.inl ⟨rfl, rfl, hle⟩
      case isFalse => exact Or.inr (hnew h)

theorem silent_allocate (e : Emitter) (scope : Scope) :
    e.Silent { e with pools := (e.pools.allocate scope).2 } := by
  by_cases hscope : scope = .buffer
  · subst hscope
    exact ⟨⟨.refl _, .refl _, rfl,
      fun he => ⟨he.pool.allocate, (Pool.scope_allocate _).trans he.scope, he.place, he.injective,
        he.scratch, he.current⟩,
      fun k hk => ⟨Pool.isAllocated_of_allocate hk.allocated, hk.place, hk.room⟩,
      fun _ _ hx => Or.inl hx⟩, rfl, rfl⟩
  · exact ⟨.of_pools (Pools.get_allocate_of_ne (Ne.symm hscope)), rfl, rfl⟩

/-- A buffer gets a slot that was not in use and a place that no other buffer has. -/
theorem succeeds_stackBuffer {n : Nat} {b : StackBuffer}
    (h : Succeeds (stackBuffer t n) e b e') :
    e.Silent e' ∧ b.ty = t ∧ b.length = n ∧ (e.Tidy → e'.Held b) ∧
      ∀ k, e.Held k → k.slot ≠ b.slot := by
  unfold stackBuffer at h
  dsimp only at h
  split at h
  · obtain ⟨_, _, h, -⟩ := succeeds_bind.1 h
    exact absurd h succeeds_throw
  obtain ⟨slot, e₁, hslot, h⟩ := succeeds_bind.1 h
  obtain ⟨p, e₂, hp, h⟩ := succeeds_bind.1 h
  obtain ⟨rfl, rfl⟩ := succeeds_pure.1 h
  obtain ⟨rfl, rfl⟩ := succeeds_allocate.1 hslot
  have hfree : e.pools.buffer.isAllocated (e.pools.allocate .buffer).1 = false :=
    Pool.not_isAllocated_allocate _
  have hfresh : ∀ k, e.Held k → k.slot ≠ (e.pools.allocate .buffer).1 := by
    intro k hk heq
    rw [← heq, hk.allocated] at hfree
    cases hfree
  have hindex : ∀ k, e.Held k → k.slot.index ≠ (e.pools.allocate .buffer).1.index := by
    intro k hk heq
    have hscope := (Pool.isAllocated_iff.1 hk.allocated).1
    exact hfresh k hk (Slot.mk.injEq _ _ _ _ ▸
      ⟨hscope.trans (Pool.scope_slot_allocate e.pools.buffer).symm, heq⟩)
  refine ⟨?_, rfl, rfl, fun he => ?_, hfresh⟩
  · rcases succeeds_bufferPlace hp with ⟨rfl, -, -⟩ | ⟨rfl, rfl⟩
    · exact silent_allocate e .buffer
    · have hw := e.body.within_newPlace (n * t.size)
      have hnew : ∀ (he : e.Tidy) (i : Nat),
          e.body.bufferPlaces.find? i ≠ some ⟨e.body.stack.size⟩ :=
        fun he i hi => Nat.lt_irrefl _ (he.place i _ hi)
      refine ⟨⟨⟨rfl, rfl, hw.blocks, .refl _, .refl _, hw.stack⟩, .refl _, rfl,
        fun he => ⟨he.pool.allocate, (Pool.scope_allocate _).trans he.scope, fun i p hi => ?_,
          fun i j p hi hj => ?_, he.scratch, he.current⟩,
        fun k hk => ⟨Pool.isAllocated_of_allocate hk.allocated, ?_, ?_⟩,
        fun _ _ hx => Or.inl hx⟩, rfl, rfl⟩
      · rw [Table.find?_insert] at hi
        refine lt_of_lt_of_eq ?_ (Array.size_push _).symm
        split at hi
        case isTrue =>
          obtain rfl := Option.some.inj hi
          exact Nat.lt_succ_self _
        case isFalse => exact Nat.lt_succ_of_lt (he.place i p hi)
      · exact Table.injective_insert (hnew he) he.injective i j p hi hj
      · exact ((Table.find?_insert ..).trans (if_neg (hindex k hk))).trans hk.place
      · obtain ⟨m, hm, hfit⟩ := hk.room
        exact ⟨m, hw.stack _ _ hm, hfit⟩
  · have halloc := Pool.isAllocated_allocate he.pool
    rcases succeeds_bufferPlace hp with ⟨rfl, hfind, hle⟩ | ⟨rfl, rfl⟩
    · refine ⟨halloc, hfind, ?_⟩
      have hlt := he.place _ _ hfind
      refine ⟨_, Array.getElem?_eq_getElem hlt, ?_⟩
      rwa [Array.getElem?_eq_getElem hlt] at hle
    · refine ⟨halloc, ?_, _, Array.getElem?_push_size, le_max_left _ _⟩
      exact (Table.find?_insert ..).trans (if_pos rfl)

/-- A scratch slot keeps its variable or gets a new one. -/
theorem scratchVar_cases {x : VarId} (h : Succeeds (scratchVar slot t) e x e') :
    (e' = e ∧ e.body.scratchVars.find? slot.index = some x ∧
      e.body.varTypes[x.index]? = some t) ∨
    x = ⟨e.body.varTypes.size⟩ ∧ e' = { e with body := { (e.body.newVar t).2 with
      scratchVars := e.body.scratchVars.insert slot.index x } } := by
  unfold scratchVar at h
  obtain ⟨b, _, hb, h⟩ := succeeds_bind.1 h
  obtain ⟨rfl, rfl⟩ := succeeds_body.1 hb
  have hnew : Succeeds (do
      let x ← newVar t
      modify fun e => { e with
        body := { e.body with scratchVars := e.body.scratchVars.insert slot.index x } }
      return x) e x e' → x = ⟨e.body.varTypes.size⟩ ∧ e' = { e with body := { (e.body.newVar t).2 with
        scratchVars := e.body.scratchVars.insert slot.index x } } := by
    intro h
    obtain ⟨y, _, hy, h⟩ := succeeds_bind.1 h
    obtain ⟨rfl, rfl⟩ := succeeds_newVar.1 hy
    obtain ⟨_, _, hset, hx⟩ := succeeds_bind.1 h
    obtain ⟨rfl, rfl⟩ := succeeds_pure.1 hx
    exact ⟨rfl, (succeeds_modify.1 hset).symm⟩
  cases hfind : e.body.scratchVars.find? slot.index with
  | none =>
      rw [hfind] at h
      exact .inr (hnew h)
  | some y =>
      rw [hfind] at h
      obtain ⟨u, _, hu, h⟩ := succeeds_bind.1 h
      obtain ⟨hy, rfl⟩ := succeeds_check.1 hu
      split at h
      case isTrue ht =>
        obtain ⟨rfl, rfl⟩ := succeeds_pure.1 h
        exact .inl ⟨rfl, rfl, ht ▸ Body.varType_eq_ok_iff.1 hy⟩
      case isFalse => exact .inr (hnew h)

/-- A scratch variable is one that a scratch slot had already, or a new one. -/
theorem succeeds_scratchVar {x : VarId} (h : Succeeds (scratchVar slot t) e x e') :
    e.Silent e' ∧ e'.body.varTypes[x.index]? = some t ∧
      (e.body.scratchVars.find? slot.index = some x ∨ e.body.varTypes.size ≤ x.index) := by
  rcases scratchVar_cases h with ⟨rfl, hfind, ht⟩ | ⟨rfl, rfl⟩
  · exact ⟨.refl _, ht, .inl hfind⟩
  have hw := e.body.within_newVar t
  refine ⟨⟨⟨⟨rfl, rfl, hw.blocks, .refl _, hw.varTypes, .refl _⟩, .refl _, rfl,
    fun he => ⟨he.pool, he.scope, he.place, he.injective, fun i x hi => ?_, he.current⟩,
    fun k hk => ⟨hk.allocated, hk.place, hk.room⟩, fun i x hi => ?_⟩, rfl, rfl⟩,
    Array.getElem?_push_size, .inr (Nat.le_refl _)⟩
  · rw [Table.find?_insert] at hi
    refine lt_of_lt_of_eq ?_ (Array.size_push _).symm
    split at hi
    case isTrue =>
      obtain rfl := Option.some.inj hi
      exact Nat.lt_succ_self _
    case isFalse => exact Nat.lt_succ_of_lt (he.scratch i x hi)
  · rw [Table.find?_insert] at hi
    split at hi
    case isTrue =>
      obtain rfl := Option.some.inj hi
      exact Or.inr (Nat.le_refl _)
    case isFalse => exact Or.inl hi

/-- A variable from the scratch pool is written once it has been found or made. -/
theorem succeeds_scratch {v : ValueId} {x : VarId} (h : Succeeds (scratch v) e (slot, x) e') :
    ∃ t e₁, e.body.valueTypes[v.index]? = some t ∧ e.Silent e₁ ∧
      e₁.body.varTypes[x.index]? = some t ∧
      (e.body.scratchVars.find? slot.index = some x ∨ e.body.varTypes.size ≤ x.index) ∧
      Succeeds (push (.writeVar x v)) e₁ () e' := by
  simp only [scratch, succeeds_bind, succeeds_valueType, Prod.mk.injEq, succeeds_pure] at h
  obtain ⟨t, _, ⟨ht, rfl⟩, _, e₁, hslot, _, e₂, hvar, _, e₃, h, ⟨rfl, rfl⟩, rfl⟩ := h
  obtain ⟨hsilent, htype, hor⟩ := succeeds_scratchVar hvar
  obtain ⟨-, rfl⟩ := succeeds_allocate.1 hslot
  exact ⟨t, e₂, ht, (silent_allocate _ _).trans hsilent, htype, hor, h⟩

theorem silent_release {u : Unit} (h : Succeeds (release slot) e u e') (hslot : slot.scope ≠ .buffer) :
    e.Silent e' := by
  obtain ⟨ps, hps, rfl⟩ := succeeds_release.1 h
  exact ⟨.of_pools (Pools.get_release_of_ne hps (Ne.symm hslot)), rfl, rfl⟩

theorem silent_freeScratch {u : Unit} (h : Succeeds (freeScratch slot) e u e') : e.Silent e' := by
  obtain ⟨hscope, h⟩ := succeeds_refuse.1 h
  refine silent_release h ?_
  rw [not_not.1 hscope]
  decide

/-- A scratch slot that is in use can be given back. -/
theorem exists_freeScratch (hscope : e.pools.scratch.scope = .scratch)
    (hslot : e.pools.scratch.isAllocated slot = true) :
    ∃ p, Succeeds (Pool.release slot) e.pools.scratch () p ∧
      Succeeds (freeScratch slot) e () { e with pools := { e.pools with scratch := p } } := by
  have hslotScope := (Pool.isAllocated_iff.1 hslot).1
  rw [hscope] at hslotScope
  obtain ⟨p, hrelease⟩ : ∃ p, Succeeds (Pool.release slot) e.pools.scratch () p :=
    ⟨_, Pool.succeeds_release.2 ⟨hslot, rfl⟩⟩
  have hpools : Succeeds (Pools.release slot) e.pools () { e.pools with scratch := p } := by
    rw [Pools.release, hslotScope]
    exact Pools.succeeds_releaseIn.2 ⟨p, hrelease, rfl⟩
  exact ⟨p, hrelease, succeeds_refuse.2 ⟨not_not.2 hslotScope, succeeds_release.2 ⟨_, hpools, rfl⟩⟩⟩

theorem eq_of_fails_scratchVar {f : Fault} (h : Fails (scratchVar slot t) e f e') : e' = e := by
  unfold scratchVar at h
  rcases fails_bind.1 h with h | ⟨b, _, hb, h⟩
  · exact absurd h fails_body
  obtain ⟨rfl, rfl⟩ := succeeds_body.1 hb
  cases hfind : e.body.scratchVars.find? slot.index with
  | none =>
      rw [hfind] at h
      simp at h
  | some x =>
      rw [hfind] at h
      rcases fails_bind.1 h with h | ⟨u, _, -, h⟩
      · exact (fails_check.1 h).2.symm
      · split at h <;> simp at h

theorem not_fails_bufferPlace {bytes : Nat} {f : Fault} : ¬ Fails (bufferPlace slot bytes) e f e' := by
  intro h
  rcases fails_bind.1 h with h | ⟨b, _, -, h⟩
  · exact fails_body h
  cases hfind : b.bufferPlaces.find? slot.index with
  | none => simp [hfind] at h
  | some place =>
      rw [hfind] at h
      dsimp only at h
      split at h <;> simp at h

theorem eq_of_fails_stackBuffer {n : Nat} {f : Fault} (h : Fails (stackBuffer t n) e f e') :
    e' = e := by
  rcases fails_refuse.1 h with ⟨-, -, rfl⟩ | ⟨-, h⟩
  · rfl
  · simp [not_fails_bufferPlace] at h

/-- Module data for a vector hold the bytes of its values. -/
theorem succeeds_literalData {values : Values} {id : DatumId}
    (h : Succeeds (literalData values) e id e') :
    e.Silent e' ∧ ∃ name, e'.declarations.data[id.index]? = some ⟨name, values.bytes, false⟩ := by
  obtain ⟨s, e₁, hs, h⟩ := succeeds_bind.1 h
  obtain ⟨-, rfl⟩ := succeeds_allocate.1 hs
  have hsilent := silent_allocate e .literal
  simp only [addDatum, succeeds_bind, succeeds_get, succeeds_set, succeeds_pure] at h
  obtain ⟨_, _, ⟨rfl, rfl⟩, _, _, rfl, rfl, rfl⟩ := h
  exact ⟨hsilent.trans ⟨.of_declarations (Declarations.extends_addDatum _ _), rfl, rfl⟩, s.name,
    Array.getElem?_push_size⟩

end Slots

theorem straight_release {slot : Slot} (hslot : slot.scope ≠ .buffer) : (release slot).Linear :=
  .of_runs (fun _ _ _ h => (silent_release h hslot).straight)
    fun e _ _ h => (fails_release.1 h).2 ▸ .refl e

/-- Slots for scratch values do not belong to buffers. -/
theorem grows_release {slot : Slot} (hslot : slot.scope = .scratch) :
    Leaves Emitter.Grows (release slot) := by
  refine (straight_release ?_).mono fun _ _ h => h.toGrows
  rw [hslot]
  decide

instance : Records Emitter.Straight where
  newValue t := fun e => ⟨.of_body (e.body.within_newValue t) id rfl rfl, rfl, fun _ _ => rfl⟩
  newVar t := fun e => ⟨.of_body (e.body.within_newVar t) id rfl rfl, rfl, fun _ _ => rfl⟩
  push i _ _ := straight_push i
  define t instr _ _ := straight_define t instr
  allocate scope := fun e => (silent_allocate e scope).straight
  takeScratch _ := .bind (fun e => (silent_allocate e .scratch).straight) fun _ =>
    .bind (.of_runs (fun _ _ _ h => (succeeds_scratchVar h).1.straight)
      fun e _ _ h => eq_of_fails_scratchVar h ▸ .refl e) fun _ => .pure _
  stackBuffer _ _ := .of_runs (fun _ _ _ h => (succeeds_stackBuffer h).1.straight)
    fun e _ _ h => eq_of_fails_stackBuffer h ▸ .refl e
  helper _ _ _ _ h := ⟨.of_declarations (Declarations.helper_eq_ok h).2, rfl, fun _ _ => rfl⟩
  datum _ _ _ _ := ⟨.of_declarations (Declarations.extends_addDatum _ _), rfl, fun _ _ => rfl⟩
  describe e text := (silent_describe e text).straight

instance : Offsets Emitter.Straight where
  offset _ _ _ := straight_define _ _

instance : Frames Emitter.Straight where
  bufferAddress _ := straight_define _ _

/-- What straight-line code keeps is kept by a body that only grows. -/
theorem Linear.grows {m : Emit α} (hm : m.Linear) : Leaves Emitter.Grows m :=
  hm.mono fun _ _ h => h.toGrows

instance : Records Emitter.Grows where
  newValue t := Linear.grows (Notes.newValue t)
  newVar t := Linear.grows (Notes.newVar t)
  push i hi hd := Linear.grows (Notes.push i hi hd)
  define t instr hi hd := Linear.grows (Notes.define t instr hi hd)
  allocate scope := Linear.grows (Notes.allocate scope)
  takeScratch t := Linear.grows (Notes.takeScratch t)
  stackBuffer t length := Linear.grows (Notes.stackBuffer t length)
  helper e op t r h := (Records.helper (R := Emitter.Straight) e op t r h).toGrows
  datum e s bytes writable := (Notes.datum (R := Emitter.Straight) e s bytes writable).toGrows
  describe e text := (silent_describe e text).toGrows

instance : Offsets Emitter.Grows where
  offset address index size := Linear.grows (Offsets.offset address index size)

instance : Frames Emitter.Grows where
  bufferAddress buffer := Linear.grows (Frames.bufferAddress buffer)

instance : Branches Emitter.Grows where
  createBlock label := fun e => .of_body (e.body.within_newBlock label)
    id rfl rfl
  terminate t := .of_runs (fun e _ _ h => by
    obtain ⟨b, hb, rfl⟩ := succeeds_terminate.1 h
    have hw := Body.within_terminate hb
    obtain ⟨-, rfl⟩ := Body.terminate_eq_ok_iff.1 hb
    exact .of_body hw id rfl rfl) fun e _ _ h => (fails_terminate.1 h).2 ▸ .refl e
  switchTo id := .of_runs (fun e _ _ h => by
    obtain ⟨b, hb, rfl⟩ := succeeds_switchTo.1 h
    have hw := Body.within_switchTo hb
    obtain ⟨⟨k, hk⟩, layout, rfl⟩ := Body.switchTo_eq_ok hb
    exact .of_body hw (fun _ => ⟨k, hk.1⟩) rfl rfl) fun e _ _ h => (fails_switchTo.1 h).2 ▸ .refl e

end Emit

end Dataflow.Code
