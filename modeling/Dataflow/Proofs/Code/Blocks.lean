import Dataflow.Proofs.Code.Operations

/-!
# Blocks of a body

While a body is recorded, its blocks are made, entered, left and entered again in any order, and some of
what is asked of it is refused. All the time the layout lists blocks once, the entry first, and nothing
stands in a block outside it. Once a block is closed, it stays as it is and is not entered any more, and
what is refused changes nothing. So whoever goes through the whole layout comes to every block once and
begins at the entry.
-/

namespace Dataflow.Code

/-- A single thing that is done to the body under emission, whether or not it makes sense there. -/
inductive Edit
  | newBlock (label : String)
  | switchTo (id : BlockId)
  | push (i : Instr)
  | terminate (t : Terminator)
  | newValue (t : Ty)
  | newVar (t : Ty)
  | newPlace (size : Nat)

namespace Edit

def apply : Edit → Body → Except Fault Body
  | .newBlock label, b => .ok (b.newBlock label).2
  | .switchTo id, b => b.switchTo id
  | .push i, b => b.push i
  | .terminate t, b => b.terminate t
  | .newValue t, b => .ok (b.newValue t).2
  | .newVar t, b => .ok (b.newVar t).2
  | .newPlace size, b => .ok (b.newPlace size).2

def perform : Edit → Emit Unit
  | .newBlock label => (fun _ => ()) <$> Emit.createBlock label
  | .switchTo id => Emit.switchTo id
  | .push i => Emit.push i
  | .terminate t => Emit.terminate t
  | .newValue t => (fun _ => ()) <$> Emit.newValue t
  | .newVar t => (fun _ => ()) <$> Emit.newVar t
  | .newPlace size => do Emit.setBody ((← Emit.body).newPlace size).2

end Edit

/-- The emitter after some edits, granted or refused. -/
def Emitter.edited (e : Emitter) (edits : List Edit) : Emitter :=
  edits.foldl (fun e c => (c.perform.run.run e).2) e

namespace Body

/-- The layout lists blocks of the body, none of them twice and the entry first. The current block is
one of them, and so is every block in which something stands. -/
structure LaidOut (b : Body) : Prop where
  nodup : b.layout.Nodup
  entry : b.layout.head? = some ⟨0⟩
  current : b.current ∈ b.layout
  known : ∀ id ∈ b.layout, id.index < b.blocks.size
  used : ∀ id k, b.blocks[id.index]? = some k → k.instrs ≠ #[] ∨ k.isClosed = true → id ∈ b.layout

/-- What is not done in a body whose current block is there: a block is not entered if it does not
exist or is closed, and nothing is added to a closed block. -/
inductive Refuses (b : Body) : Edit → Fault → Prop
  | missing {id : BlockId} : b.blocks[id.index]? = none →
      b.Refuses (.switchTo id) (.missing (.block id.index b.name))
  | entered {id : BlockId} {k : Block} : b.ClosedAt id k →
      b.Refuses (.switchTo id) (.sequencing (.terminatedBlock id.index k.label))
  | pushed {i : Instr} {k : Block} : b.ClosedAt b.current k →
      b.Refuses (.push i) (.sequencing (.closedBlock b.current.index k.label b.name))
  | terminated {t : Terminator} {k : Block} : b.ClosedAt b.current k →
      b.Refuses (.terminate t) (.sequencing (.closedBlock b.current.index k.label b.name))

variable {b b' : Body} {c : Edit} {f : Fault} {id : BlockId}

namespace LaidOut

theorem new (id : FunctionId) (name : String) (params : List Param) (result : Option Ty) :
    (Body.new id name params result).LaidOut := by
  obtain ⟨args, types, h⟩ := Body.new_eq id name params result
  rw [h]
  refine ⟨List.nodup_singleton _, rfl, List.mem_singleton_self _, by simp, fun id k hk hused => ?_⟩
  obtain ⟨_ | n⟩ := id
  · exact List.mem_singleton_self _
  · cases hk

/-- Only the blocks matter and where they are listed. -/
theorem congr (h : b.LaidOut) (hlayout : b'.layout = b.layout) (hcurrent : b'.current = b.current)
    (hblocks : b'.blocks = b.blocks) : b'.LaidOut := by
  obtain ⟨hnodup, hentry, hin, hknown, hused⟩ := h
  constructor <;> simpa only [hlayout, hcurrent, hblocks]

theorem newBlock (h : b.LaidOut) (label : String) : (b.newBlock label).2.LaidOut where
  nodup := h.nodup
  entry := h.entry
  current := h.current
  known id hid := by
    change id.index < (b.blocks.push _).size
    exact Array.size_push _ ▸ Nat.lt_succ_of_lt (h.known id hid)
  used id k hk hused := by
    rcases getElem?_of_push hk with hk | ⟨-, rfl⟩
    · exact h.used id k hk hused
    · -- The new block is empty and open.
      exact absurd hused (by simp [Block.isClosed])

theorem switchTo (h : b.LaidOut) (hs : b.switchTo id = .ok b') : b'.LaidOut := by
  obtain ⟨⟨k, hk, -⟩, rfl⟩ := switchTo_eq_ok_iff.1 hs
  have hlt := (Array.getElem?_eq_some_iff.1 hk).1
  by_cases hid : id ∈ b.layout
  · rw [if_pos (List.contains_iff_mem.2 hid)]
    exact ⟨h.nodup, h.entry, hid, h.known, h.used⟩
  · rw [if_neg (mt List.contains_iff_mem.1 hid)]
    refine ⟨?_, ?_, List.mem_append_right _ List.mem_cons_self, fun id' hid' => ?_,
      fun id' k' hk' hused => List.mem_append_left _ (h.used id' k' hk' hused)⟩
    · exact List.concat_eq_append ▸ h.nodup.concat hid
    · rw [List.head?_append, h.entry]
      rfl
    · rcases List.mem_append.1 hid' with hid' | hid'
      · exact h.known id' hid'
      · obtain rfl := List.mem_singleton.1 hid'
        exact hlt

/-- What is added stands in the current block, and that one is in the layout. -/
theorem modify (h : b.LaidOut) (g : Block → Block) :
    { b with blocks := b.blocks.modify b.current.index g }.LaidOut where
  nodup := h.nodup
  entry := h.entry
  current := h.current
  known id hid := (h.known id hid).trans_eq Array.size_modify.symm
  used id k hk hused := by
    by_cases hid : b.current = id
    · exact hid ▸ h.current
    · have hne : b.current.index ≠ id.index := fun hindex => hid (congrArg BlockId.mk hindex)
      rw [Array.getElem?_modify, if_neg hne] at hk
      exact h.used id k hk hused

/-- Whatever is done to a body, its layout stays in order. -/
theorem apply (h : b.LaidOut) (hc : c.apply b = .ok b') : b'.LaidOut := by
  cases c with
  | newBlock label => exact Except.ok.inj hc ▸ h.newBlock label
  | switchTo id => exact h.switchTo hc
  | push i =>
      obtain ⟨-, rfl⟩ := push_eq_ok_iff.1 hc
      exact h.modify _
  | terminate t =>
      obtain ⟨-, rfl⟩ := terminate_eq_ok_iff.1 hc
      exact h.modify _
  | newValue t => exact Except.ok.inj hc ▸ h.congr rfl rfl rfl
  | newVar t => exact Except.ok.inj hc ▸ h.congr rfl rfl rfl
  | newPlace size => exact Except.ok.inj hc ▸ h.congr rfl rfl rfl

/-- The whole layout has every block once. -/
theorem perm (h : b.LaidOut) : b.fullLayout.Perm b.blockIds := by
  have hids : b.blockIds.Nodup :=
    List.nodup_range.map fun m n hmn => congrArg BlockId.index hmn
  have hdisjoint : b.layout.Disjoint (b.blockIds.filter fun id => !b.layout.contains id) :=
    fun id hid hrest => by simp [hid] at hrest
  refine (List.perm_ext_iff_of_nodup (h.nodup.append (hids.filter _) hdisjoint) hids).2 fun id => ?_
  rw [List.mem_append, List.mem_filter]
  constructor
  · rintro (hid | ⟨hid, -⟩)
    · exact mem_blockIds.2 (h.known id hid)
    · exact hid
  · intro hid
    by_cases hin : id ∈ b.layout
    · exact .inl hin
    · exact .inr ⟨hid, by simpa using hin⟩

/-- Where the layout is in order, no edit is refused without need. -/
theorem apply_eq_error_iff (h : b.LaidOut) : c.apply b = .error f ↔ b.Refuses c f := by
  have hcurrent : b.requireOpen = .error f ↔ ∃ k, b.ClosedAt b.current k ∧
      f = .sequencing (.closedBlock b.current.index k.label b.name) := by
    rw [requireOpen_eq_error_iff, Array.getElem?_eq_getElem (h.known _ h.current)]
    exact or_iff_right fun hnone => Option.some_ne_none _ hnone.1
  cases c with
  | switchTo id =>
      refine switchTo_eq_error_iff.trans ⟨?_, fun hf => ?_⟩
      · rintro (⟨hnone, rfl⟩ | ⟨k, hk, rfl⟩)
        · exact .missing hnone
        · exact .entered hk
      · cases hf with
        | missing hnone => exact .inl ⟨hnone, rfl⟩
        | entered hk => exact .inr ⟨_, hk, rfl⟩
  | push i =>
      refine push_eq_error_iff.trans (hcurrent.trans ⟨?_, fun hf => ?_⟩)
      · rintro ⟨k, hk, rfl⟩
        exact .pushed hk
      · cases hf with | pushed hk => exact ⟨_, hk, rfl⟩
  | terminate t =>
      refine terminate_eq_error_iff.trans (hcurrent.trans ⟨?_, fun hf => ?_⟩)
      · rintro ⟨k, hk, rfl⟩
        exact .terminated hk
      · cases hf with | terminated hk => exact ⟨_, hk, rfl⟩
  | _ => exact ⟨nofun, nofun⟩

end LaidOut

theorem within_apply (h : c.apply b = .ok b') : b.Within b' := by
  cases c with
  | newBlock label => exact Except.ok.inj h ▸ within_newBlock b label
  | switchTo id => exact within_switchTo h
  | push i => exact within_push h
  | terminate t => exact within_terminate h
  | newValue t => exact Except.ok.inj h ▸ within_newValue b t
  | newVar t => exact Except.ok.inj h ▸ within_newVar b t
  | newPlace size => exact Except.ok.inj h ▸ within_newPlace b size

end Body

namespace Emit

/-- An edit of the body that may be refused is made as a whole or not at all. -/
theorem run_of_iff {m : Emit Unit} {r : Except Fault Body} {e : Emitter} :
    (∀ e', Succeeds m e () e' ↔ ∃ b, r = .ok b ∧ { e with body := b } = e') →
    (∀ f e', Fails m e f e' ↔ r = .error f ∧ e = e') →
    m.run.run e = match r with
      | .ok b => (.ok (), { e with body := b })
      | .error f => (.error f, e) := by
  intro hs hf
  cases r with
  | ok b => exact (hs _).2 ⟨b, rfl, rfl⟩
  | error f => exact (hf f e).2 ⟨rfl, rfl⟩

end Emit

namespace Emitter

variable {e e' : Emitter} {c : Edit} {f : Fault} {id : BlockId} {k : Block}

theorem run_edit (c : Edit) (e : Emitter) : c.perform.run.run e = match c.apply e.body with
    | .ok b => (.ok (), { e with body := b })
    | .error f => (.error f, e) := by
  cases c with
  | switchTo id => exact Emit.run_of_iff (fun _ => Emit.succeeds_switchTo) fun _ _ => Emit.fails_switchTo
  | push i => exact Emit.run_of_iff (fun _ => Emit.succeeds_push) fun _ _ => Emit.fails_push
  | terminate t => exact Emit.run_of_iff (fun _ => Emit.succeeds_terminate) fun _ _ => Emit.fails_terminate
  | _ => rfl

theorem fails_edit_iff : Fails c.perform e f e' ↔ c.apply e.body = .error f ∧ e' = e := by
  unfold Fails
  rw [run_edit]
  cases c.apply e.body with
  | ok b => exact ⟨nofun, nofun⟩
  | error f' =>
      constructor
      · intro h
        obtain ⟨hf, rfl⟩ := Prod.mk.inj h
        exact ⟨congrArg _ (Except.error.inj hf), rfl⟩
      · rintro ⟨hf, rfl⟩
        rw [Except.error.inj hf]

/-- What every granted edit keeps is kept by all edits, however many of them are refused. -/
theorem holds_edited {P : Body → Prop} (h : P e.body)
    (hstep : ∀ (b b' : Body) (c : Edit), P b → c.apply b = .ok b' → P b') (edits : List Edit) :
    P (e.edited edits).body := by
  induction edits generalizing e with
  | nil => exact h
  | cons c edits ih =>
      refine ih ?_
      change P (c.perform.run.run e).2.body
      rw [run_edit]
      cases hc : c.apply e.body with
      | ok b => exact hstep _ _ _ h hc
      | error f => exact h

theorem within_edited (e : Emitter) (edits : List Edit) : e.body.Within (e.edited edits).body :=
  holds_edited (.refl _) (fun _ _ _ h hc => h.trans (Body.within_apply hc)) edits

/-- The blocks of the body under emission are in order, and edits do not bring them out of it. -/
structure Disciplined (e : Emitter) : Prop where
  laidOut : e.body.LaidOut
  complete : e.body.fullLayout.Perm e.body.blockIds
  extended : e.body.layout <+: e.body.fullLayout
  /-- Whatever is done later, a closed block is the same and is not entered. -/
  closed : ∀ id k, e.body.ClosedAt id k → ∀ later, (e.edited later).body.ClosedAt id k ∧
    Fails (Edit.switchTo id).perform (e.edited later)
      (.sequencing (.terminatedBlock id.index k.label)) (e.edited later)
  refused : ∀ c f e', Fails (Edit.perform c) e f e' ↔ e.body.Refuses c f ∧ e' = e

theorem disciplined_of_laidOut (h : e.body.LaidOut) : e.Disciplined where
  laidOut := h
  complete := h.perm
  extended := List.prefix_append _ _
  closed id k hk later := by
    have hlater := hk.of_within (e.within_edited later)
    exact ⟨hlater, fails_edit_iff.2 ⟨Body.switchTo_eq_error_iff.2 (.inr ⟨k, hlater, rfl⟩), rfl⟩⟩
  refused c f e' := by rw [fails_edit_iff, h.apply_eq_error_iff]

/-- **Blocks are kept in order.** A function is begun, and whatever is then done to its body and however
much of it is refused, the body is in order. -/
theorem disciplined_edited (id : FunctionId) (name : String) (params : List Param)
    (result : Option Ty) (d : Declarations) (ps : Pools) (s : Settings) (edits : List Edit) :
    (edited ⟨Body.new id name params result, d, ps, s⟩ edits).Disciplined :=
  disciplined_of_laidOut (holds_edited (.new id name params result) (fun _ _ _ h hc => h.apply hc) edits)

/-- A block that was left open is entered again, one that was closed is not. -/
example :
    let b := (edited ⟨Body.new ⟨0⟩ "f" [] none, {}, {}, {}⟩ [.newBlock "a", .newBlock "b", .switchTo ⟨2⟩,
      .terminate (.ret none), .push (.location 1), .switchTo ⟨0⟩, .switchTo ⟨2⟩]).body
    (b.layout, b.fullLayout, b.current) = ([⟨0⟩, ⟨2⟩], [⟨0⟩, ⟨2⟩, ⟨1⟩], ⟨0⟩) := by
  decide

end Emitter

end Dataflow.Code
