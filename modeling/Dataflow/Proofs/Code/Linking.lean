import Dataflow.Proofs.Code.Conclusion
import Dataflow.Proofs.Code.Protocol

/-!
# Symbols of a module

Defining a body enters symbols for the data, for the function and for all that it calls. What a
failing attempt has entered stays. Data are named by slots and helpers after operators, so that the
symbols of helpers are always free: once a body is defined, the helpers that it asked for can be.
-/

namespace Dataflow.Code

theorem Slot.name_ne_helperName (s : Slot) (op : Operator) (t : Ty) :
    s.name ≠ Declarations.helperName op t := by
  intro h
  have hfirst := Declarations.head?_helperName op t
  rw [← h] at hfirst
  obtain ⟨scope, i⟩ := s
  cases scope <;> simp [Slot.name, Scope.stem, toString] at hfirst

theorem Body.id_new (id : FunctionId) (name : String) (params : List Param) (result : Option Ty) :
    (Body.new id name params result).id = id := by
  obtain ⟨args, types, h⟩ := Body.new_eq id name params result
  exact congrArg Body.id h

namespace Declarations

structure Labelled (d : Declarations) : Prop where
  data : ∀ x ∈ d.data, ∃ s : Slot, x.name = s.name
  pending : ∀ r ∈ d.pending, ∃ s, d.functions[r.function.index]? = some s ∧
    s.name = helperName r.op r.ty ∧ s.exported = false

def Bears (d : Declarations) (name : String) : Prop :=
  (∃ s ∈ d.functions, s.name = name) ∨ ∃ x ∈ d.data, x.name = name

structure Adds (d d' : Declarations) : Prop where
  functions : Prefix d.functions d'.functions
  data : Prefix d.data d'.data
  pending : d.pending ⊆ d'.pending
  fresh : ∀ (i : Nat) (s : Signature), d'.functions[i]? = some s →
    d.functions[i]? = some s ∨ s.exported = false ∧ ∃ r ∈ d'.pending, r.function = ⟨i⟩
  labelled : d.Labelled → d'.Labelled

variable {d d' d'' : Declarations}

theorem Adds.refl (d : Declarations) : d.Adds d :=
  ⟨.refl _, .refl _, List.Subset.refl _, fun _ _ h => .inl h, id⟩

theorem Adds.trans (h : d.Adds d') (h' : d'.Adds d'') : d.Adds d'' where
  functions := h.functions.trans h'.functions
  data := h.data.trans h'.data
  pending := List.Subset.trans h.pending h'.pending
  fresh i s hs := by
    rcases h'.fresh i s hs with hs | hs
    · rcases h.fresh i s hs with hs | ⟨he, r, hr, hid⟩
      · exact .inl hs
      · exact .inr ⟨he, r, h'.pending hr, hid⟩
    · exact .inr hs
  labelled := h'.labelled ∘ h.labelled

theorem Bears.mono {name : String} (h : d.Bears name) (hfunctions : Prefix d.functions d'.functions)
    (hdata : Prefix d.data d'.data) : d'.Bears name :=
  h.imp (fun ⟨s, hs, hname⟩ => ⟨s, hfunctions.mem hs, hname⟩)
    fun ⟨x, hx, hname⟩ => ⟨x, hdata.mem hx, hname⟩

theorem adds_helper {op : Operator} {t : Ty} {id : FunctionId} (h : d.helper op t = .ok (id, d')) :
    d.Adds d' := by
  obtain ⟨-, rfl⟩ | ⟨-, rfl, rfl⟩ := helper_cases h
  · exact .refl _
  refine ⟨.push _ _, .refl _, fun r hr => List.mem_append_left _ hr, fun i s hs => ?_,
    fun hd => ⟨hd.data, fun r hr => ?_⟩⟩
  · rw [Array.getElem?_push] at hs
    split at hs
    · next hi =>
        obtain rfl := Option.some.inj hs
        exact .inr ⟨rfl, _, List.mem_append_right _ (List.mem_singleton_self _), by rw [hi]⟩
    · exact .inl hs
  · rcases List.mem_append.1 hr with hr | hr
    · obtain ⟨s, hs, hname⟩ := hd.pending r hr
      exact ⟨s, Prefix.push _ _ _ _ hs, hname⟩
    · obtain rfl := List.mem_singleton.1 hr
      exact ⟨_, Array.getElem?_push_size, rfl, rfl⟩

theorem adds_datum (d : Declarations) (s : Slot) (bytes : List UInt8) (writable : Bool) :
    d.Adds (d.addDatum ⟨s.name, bytes, writable⟩).2 := by
  refine ⟨.refl _, .push _ _, List.Subset.refl _, fun _ _ h => .inl h,
    fun hd => ⟨fun x hx => ?_, hd.pending⟩⟩
  rcases Array.mem_push.1 hx with hx | rfl
  · exact hd.data x hx
  · exact ⟨s, rfl⟩

end Declarations

/-- While a function is open, helpers and data are added, and it stays the same function. -/
theorem Emitter.Steps.adds {P : Instr → Prop} {e e' : Emitter} (h : e.Steps P e') :
    e.declarations.Adds e'.declarations ∧ e'.body.id = e.body.id := by
  refine h.keeps (R := fun e₁ => e.declarations.Adds e₁.declarations ∧ e₁.body.id = e.body.id)
    (fun e₁ e₂ hstep he => ?_) ⟨.refl _, rfl⟩
  obtain ⟨hd, hid⟩ := he
  cases hstep with
  | helper hd' => exact ⟨hd.trans (Declarations.adds_helper hd'), hid⟩
  | datum s bytes writable => exact ⟨hd.trans (Declarations.adds_datum _ s bytes writable), hid⟩
  | push hi hdef hb => exact ⟨hd, (Body.within_push hb).id.trans hid⟩
  | define hi hdef hb => exact ⟨hd, (Body.within_push hb).id.trans hid⟩
  | terminate hb => exact ⟨hd, (Body.within_terminate hb).id.trans hid⟩
  | switchTo hb => exact ⟨hd, (Body.within_switchTo hb).id.trans hid⟩
  | _ => exact ⟨hd, hid⟩

namespace Assembler

variable {a a' a'' : Assembler} {b : Body} {f : Fault}

/-- A function that is begun comes after all that are declared. -/
theorem exists_begun (a : Assembler) (name : String) (params : List Param) (result : Option Ty) :
    ∃ b ps, b.id = ⟨a.declarations.functions.size⟩ ∧ a.begun name params result = { a with
      declarations := { a.declarations with
        functions := a.declarations.functions.push ⟨name, params.map (·.ty), result, true⟩ }
      pools := ps
      body := some b
      stage := .opened } := by
  refine ⟨_, _, ?_, rfl⟩
  exact Body.id_new _ name params result

section Symbols

def SlotSymbols (a : Assembler) : Prop :=
  ∀ name, a.symbols.find? name = some .datum → ∃ s : Slot, name = s.name

def SymbolsNamed (a : Assembler) : Prop :=
  ∀ name, a.symbols.find? name ≠ none → a.declarations.Bears name

structure Enters (a a' : Assembler) : Prop where
  functions : a'.declarations.functions = a.declarations.functions
  data : a'.declarations.data = a.declarations.data
  declared : a.declared ⊆ a'.declared
  known : ∀ id ∈ a'.declared,
    id ∈ a.declared ∨ ∃ s, a.declarations.functions[id.index]? = some s
  definedData : a.definedData ⊆ a'.definedData
  symbols : (∀ x ∈ a.declarations.data, ∃ s : Slot, x.name = s.name) → a.SlotSymbols →
    a'.SlotSymbols
  named : a.SymbolsNamed → a'.SymbolsNamed

theorem Enters.refl (a : Assembler) : a.Enters a :=
  ⟨rfl, rfl, List.Subset.refl _, fun _ h => .inl h, List.Subset.refl _, fun _ h => h, id⟩

theorem Enters.trans (h : a.Enters a') (h' : a'.Enters a'') : a.Enters a'' where
  functions := h'.functions.trans h.functions
  data := h'.data.trans h.data
  declared := List.Subset.trans h.declared h'.declared
  known id hid := by
    rcases h'.known id hid with hid | hid
    · exact h.known id hid
    · exact .inr (h.functions ▸ hid)
  definedData := List.Subset.trans h.definedData h'.definedData
  symbols hd hs := h'.symbols (h.data ▸ hd) (h.symbols hd hs)
  named := h'.named ∘ h.named

theorem Enters.of_closed (h : Enters { a with stage := .closed, body := none } a') : a.Enters a' :=
  ⟨h.functions, h.data, h.declared, h.known, h.definedData, h.symbols, h.named⟩

theorem enters_bind {α β : Type} {m : Assemble β} {k : β → Assemble α}
    (hm : a.Enters (m.run.run a).2)
    (hk : ∀ b t, Succeeds m a b t → a.Enters t → t.Enters ((k b).run.run t).2) :
    a.Enters ((m >>= k).run.run a).2 :=
  leaves_bind (R := Enters) (fun _ _ _ => Enters.trans) hm hk

theorem enters_check {α : Type} (r : Except Fault α) : a.Enters ((check r).run.run a).2 := by
  cases r with
  | ok x => exact .refl a
  | error f => exact .refl a

theorem enters_defineDatum {i : Nat} {x : Datum} (hx : a.declarations.data[i]? = some x) :
    a.Enters ((defineDatum ⟨i⟩ x).run.run a).2 := by
  refine enters_bind (.refl a) fun a₁ _ hget _ => ?_
  obtain ⟨rfl, rfl⟩ := succeeds_get.1 hget
  split
  · exact .refl _
  · split
    · exact .refl _
    · exact .refl _
    · refine ⟨rfl, rfl, List.Subset.refl _, fun _ h => .inl h, fun _ h => List.mem_append_left _ h,
        fun hd hs name hname => ?_, fun hs name hname => ?_⟩
      · change (a₁.symbols.insert x.name .datum).find? name = _ at hname
        rw [Table.find?_insert] at hname
        split at hname
        · next heq => exact heq ▸ hd x (Array.mem_of_getElem? hx)
        · exact hs name hname
      · change (a₁.symbols.insert x.name .datum).find? name ≠ none at hname
        rw [Table.find?_insert] at hname
        split at hname
        · next heq => exact .inr ⟨x, Array.mem_of_getElem? hx, heq.symm⟩
        · exact hs name hname

theorem enters_defineData : a.Enters (defineData.run.run a).2 := by
  refine enters_bind (.refl a) fun a₁ _ hget _ => ?_
  obtain ⟨rfl, rfl⟩ := succeeds_get.1 hget
  refine enters_bind (leaves_forIn Enters.refl (fun _ _ _ => Enters.trans) ?_)
    fun _ _ _ _ => .refl _
  rintro ⟨x, i⟩ hx t ht
  have hdata : t.declarations.data[i]? = some x := by
    rw [ht.data]
    simpa using List.mem_zipIdx_iff_getElem?.1 hx
  exact enters_bind (enters_defineDatum hdata) fun _ _ _ _ => .refl _

theorem enters_declareFunction (id : FunctionId) :
    a.Enters ((declareFunction id).run.run a).2 := by
  refine enters_bind (.refl a) fun a₁ _ hget _ => ?_
  obtain ⟨rfl, rfl⟩ := succeeds_get.1 hget
  dsimp only
  split
  · exact .refl _
  refine enters_bind (enters_check _) fun s _ hcheck _ => ?_
  obtain ⟨hs, rfl⟩ := succeeds_check.1 hcheck
  split
  · exact .refl _
  rw [Declarations.function_eq_ok_iff] at hs
  refine ⟨rfl, rfl, fun _ h => List.mem_append_left _ h, fun id' hid' => ?_, List.Subset.refl _,
    fun _ hsymbols name hname => ?_, fun hsymbols name hname => ?_⟩
  · rcases List.mem_append.1 hid' with hid' | hid'
    · exact .inl hid'
    · obtain rfl := List.mem_singleton.1 hid'
      exact .inr ⟨s, hs⟩
  · change (a₁.symbols.insert _ .function).find? name = _ at hname
    rw [Table.find?_insert] at hname
    split at hname
    · cases hname
    · exact hsymbols name hname
  · change (a₁.symbols.insert _ .function).find? name ≠ none at hname
    rw [Table.find?_insert] at hname
    split at hname
    · next heq => exact .inl ⟨s, Array.mem_of_getElem? hs, heq.symm⟩
    · exact hsymbols name hname

theorem enters_define (b : Body) : a.Enters ((define b).run.run a).2 := by
  refine enters_bind enters_defineData fun _ _ _ _ => ?_
  refine enters_bind (enters_declareFunction b.id) fun _ _ _ _ => ?_
  refine enters_bind (leaves_forM Enters.refl (fun _ _ _ => Enters.trans)
    fun id _ _ _ => enters_declareFunction id) fun _ _ _ _ => ?_
  refine enters_bind (enters_check _) fun _ _ _ _ => ?_
  split
  · exact .refl _
  · exact ⟨rfl, rfl, List.Subset.refl _, fun _ h => .inl h, List.Subset.refl _, fun _ h => h, id⟩

theorem enters_defineHelpers : a.Enters (defineHelpers.run.run a).2 := by
  refine enters_bind (.refl a) fun a₁ _ hget _ => ?_
  obtain ⟨rfl, rfl⟩ := succeeds_get.1 hget
  refine enters_bind ⟨rfl, rfl, List.Subset.refl _, fun _ h => .inl h, List.Subset.refl _,
    fun _ h => h, id⟩ fun _ _ _ _ => ?_
  refine enters_bind (leaves_forIn Enters.refl (fun _ _ _ => Enters.trans) fun r _ t _ => ?_)
    fun _ _ _ _ => .refl _
  refine enters_bind (.refl t) fun _ _ _ _ => enters_bind (enters_check _) fun _ _ _ _ => ?_
  exact enters_bind (enters_check _) fun _ _ _ _ => enters_bind (enters_define _)
    fun _ _ _ _ => .refl _

end Symbols

section Definitions

/-- After a loop that succeeds, what its steps achieve for their elements holds of all of them. -/
theorem forall_of_succeeds_forIn {σ α : Type} {Q : α → σ → Prop} {xs : List α}
    {g : α → PUnit → ExceptT Fault (StateM σ) (ForInStep PUnit)} {s s' : σ}
    (hg : ∀ x ∈ xs, ∀ s r s', Succeeds (g x ⟨⟩) s r s' →
      Q x s' ∧ r = .yield ⟨⟩ ∧ ∀ y, Q y s → Q y s') {u : PUnit}
    (h : Succeeds (forIn xs PUnit.unit g) s u s') :
    (∀ x ∈ xs, Q x s') ∧ ∀ y, Q y s → Q y s' := by
  induction xs generalizing s with
  | nil =>
      obtain ⟨-, rfl⟩ := succeeds_pure.1 h
      exact ⟨fun _ hx => (by cases hx), fun _ h => h⟩
  | cons x xs ih =>
      rw [List.forIn_cons] at h
      obtain ⟨r, t, hx, h⟩ := succeeds_bind.1 h
      obtain ⟨hq, rfl, hkeep⟩ := hg x (by simp) s r t hx
      obtain ⟨hall, hrest⟩ := ih (fun y hy => hg y (List.mem_cons_of_mem x hy)) h
      refine ⟨fun y hy => ?_, fun y hy => hrest y (hkeep y hy)⟩
      rcases List.mem_cons.1 hy with rfl | hy
      · exact hrest y hq
      · exact hall y hy

def DefinesData (a : Assembler) : Prop :=
  ∀ i < a.declarations.data.size, ⟨i⟩ ∈ a.definedData

theorem mem_of_defineDatum {id : DatumId} {d : Datum} {u : Unit}
    (h : Succeeds (defineDatum id d) a u a') : id ∈ a'.definedData ∧ a.definedData ⊆ a'.definedData := by
  obtain ⟨x, _, hget, h⟩ := succeeds_bind.1 h
  obtain ⟨rfl, rfl⟩ := succeeds_get.1 hget
  split at h
  · next hmem =>
      obtain ⟨-, rfl⟩ := succeeds_pure.1 h
      exact ⟨by simpa using hmem, List.Subset.refl _⟩
  · split at h
    · exact absurd h succeeds_throw
    · exact absurd h succeeds_throw
    · obtain rfl := succeeds_set.1 h
      exact ⟨List.mem_append_right _ (List.mem_singleton_self _), fun _ h => List.mem_append_left _ h⟩

theorem definesData_of_defineData {u : Unit} (h : Succeeds defineData a u a') :
    a'.DefinesData := by
  have hdata : a'.declarations.data = a.declarations.data := by rw [registers_defineData h]
  obtain ⟨x, _, hget, h⟩ := succeeds_bind.1 h
  obtain ⟨rfl, rfl⟩ := succeeds_get.1 hget
  obtain ⟨_, _, hloop, hend⟩ := succeeds_bind.1 h
  obtain ⟨-, rfl⟩ := succeeds_pure.1 hend
  obtain ⟨hall, -⟩ := forall_of_succeeds_forIn
    (Q := fun (y : Datum × Nat) (s : Assembler) => (⟨y.2⟩ : DatumId) ∈ s.definedData)
    (fun y _ s r s' hy => by
      obtain ⟨_, _, hdatum, hr⟩ := succeeds_bind.1 hy
      obtain ⟨rfl, rfl⟩ := succeeds_pure.1 hr
      obtain ⟨hmem, hkeep⟩ := mem_of_defineDatum hdatum
      exact ⟨hmem, rfl, fun _ h => hkeep h⟩) hloop
  intro i hi
  rw [hdata] at hi
  exact hall (x.declarations.data[i], i) (List.mem_zipIdx_iff_getElem?.2 (by simp [hi]))

theorem mem_of_declareFunction {id : FunctionId} {u : Unit}
    (h : Succeeds (declareFunction id) a u a') : id ∈ a'.declared ∧ a.declared ⊆ a'.declared := by
  obtain ⟨x, _, hget, h⟩ := succeeds_bind.1 h
  obtain ⟨rfl, rfl⟩ := succeeds_get.1 hget
  dsimp only at h
  split at h
  · next hmem =>
      obtain ⟨-, rfl⟩ := succeeds_pure.1 h
      exact ⟨by simpa using hmem, List.Subset.refl _⟩
  · obtain ⟨s, _, hs, h⟩ := succeeds_bind.1 h
    obtain ⟨-, rfl⟩ := succeeds_check.1 hs
    obtain ⟨-, h⟩ := succeeds_refuse.1 h
    obtain rfl := succeeds_set.1 h
    exact ⟨List.mem_append_right _ (List.mem_singleton_self _), fun _ h => List.mem_append_left _ h⟩

theorem subset_of_declareFunctions {ids : List FunctionId} {u : PUnit}
    (h : Succeeds (ids.forM declareFunction) a u a') : ids ⊆ a'.declared ∧ a.declared ⊆ a'.declared := by
  induction ids generalizing a with
  | nil =>
      obtain ⟨-, rfl⟩ := succeeds_pure.1 h
      exact ⟨List.nil_subset _, List.Subset.refl _⟩
  | cons id ids ih =>
      obtain ⟨_, t, hid, h⟩ := succeeds_bind.1 h
      obtain ⟨hmem, hkeep⟩ := mem_of_declareFunction hid
      obtain ⟨hall, hrest⟩ := ih h
      exact ⟨List.cons_subset.2 ⟨hrest hmem, hall⟩, List.Subset.trans hkeep hrest⟩

/-- Where a body has been defined, the data are defined as well, and it and all that it calls have
symbols. -/
theorem of_succeeds_define {u : Unit} (h : Succeeds (define b) a u a') :
    a'.DefinesData ∧ b.id ∈ a'.declared ∧ b.callees ⊆ a'.declared := by
  obtain ⟨_, a₁, h₁, h⟩ := succeeds_bind.1 h
  obtain ⟨_, a₂, h₂, h⟩ := succeeds_bind.1 h
  obtain ⟨_, a₃, h₃, h⟩ := succeeds_bind.1 h
  obtain ⟨_, _, hcheck, h⟩ := succeeds_bind.1 h
  obtain ⟨-, rfl⟩ := succeeds_check.1 hcheck
  obtain ⟨-, h⟩ := succeeds_refuse.1 h
  obtain rfl := succeeds_modify.1 h
  obtain ⟨hcallees, hkeep⟩ := subset_of_declareFunctions h₃
  have hentered : a₁.Enters a₃ := by
    have h₂' := enters_declareFunction (a := a₁) b.id
    have h₃' : a₂.Enters ((b.callees.eraseDups.forM declareFunction).run.run a₂).2 :=
      leaves_forM Enters.refl (fun _ _ _ => Enters.trans) fun id _ _ _ => enters_declareFunction id
    rw [show (declareFunction b.id).run.run a₁ = _ from h₂] at h₂'
    rw [show (b.callees.eraseDups.forM declareFunction).run.run a₂ = _ from h₃] at h₃'
    exact h₂'.trans h₃'
  refine ⟨fun i hi => hentered.definedData (definesData_of_defineData h₁ i ?_),
    hkeep (mem_of_declareFunction h₂).1, fun id hid => hcallees (List.mem_eraseDups.2 hid)⟩
  rw [← hentered.data]
  exact hi

end Definitions

section Helpers

theorem ends_defineData_of_definesData (h : a.DefinesData) :
    Ends defineData a fun _ a' => a' = a := by
  refine .after_get (Ends.bind (P := fun _ a' => a' = a) (.forIn rfl ?_) fun _ _ h => .pure h)
  rintro ⟨x, i⟩ hx a₁ rfl
  have hi : i < a₁.declarations.data.size := by
    have hx : a₁.declarations.data[i]? = some x := by
      simpa using List.mem_zipIdx_iff_getElem?.1 hx
    exact (Array.getElem?_eq_some_iff.1 hx).1
  refine Ends.bind (P := fun _ a' => a' = a₁) (.after_get ?_) fun _ _ h => .pure ⟨rfl, h⟩
  rw [if_pos (by simpa using h i hi)]
  exact .pure rfl

/-- A function that is named after no slot can be given a symbol. -/
theorem ends_declareFunction_of_slotSymbols {id : FunctionId} {s : Signature} (h : a.SlotSymbols)
    (hs : a.declarations.functions[id.index]? = some s) (hname : ∀ slot : Slot, s.name ≠ slot.name) :
    Ends (declareFunction id) a fun _ _ => True := by
  refine .after_get ?_
  split
  · exact .pure trivial
  · refine .after (succeeds_check.2 ⟨Declarations.function_eq_ok_iff.2 hs, rfl⟩)
      (.refuse (fun hfind => ?_) ?_)
    · obtain ⟨slot, hslot⟩ := h _ hfind
      exact hname slot hslot
    · exact ⟨⟨⟩, _, succeeds_set.2 rfl, trivial⟩

/-- Once the data are defined, so can be any helper. -/
theorem ends_define_helper (hdata : a.DefinesData) (hsymbols : a.SlotSymbols) {r : HelperRequest}
    (hb : HasBody a.declarations r b) (hr : a.declarations.IsHelper r.op r.ty r.function)
    {s : Signature} (hs : a.declarations.functions[r.function.index]? = some s)
    (hname : s.name = Declarations.helperName r.op r.ty) :
    Ends (define b) a fun _ _ => True := by
  obtain ⟨hid, hhelper, htyped⟩ := hb.isHelper_of_typed hr
  have hcomplete := hhelper.complete
  have horder : b.checkOrder = .ok () := hcomplete.checkOrder htyped (by simp [hhelper.types])
  refine (ends_defineData_of_definesData hdata).bind fun _ a₁ h₁ => ?_
  obtain rfl := h₁
  refine (ends_declareFunction_of_slotSymbols hsymbols (hid ▸ hs) fun slot h =>
    slot.name_ne_helperName r.op r.ty (h.symm.trans hname)).bind fun _ a₂ _ => ?_
  rw [hhelper.callees]
  refine .after (b := ⟨⟩) (succeeds_pure.2 ⟨rfl, rfl⟩) ?_
  refine .after (b := ()) (succeeds_check.2 ⟨horder, rfl⟩) (.refuse (by simp [hcomplete.isWellFormed]) ?_)
  exact ⟨⟨⟩, _, succeeds_modify.2 rfl, trivial⟩

/-- Once a function is defined, so can be the helpers that it has asked for. -/
theorem ends_helpers (ht : a.declarations.Typed) (hl : a.declarations.Labelled)
    (hdata : a.DefinesData) (hsymbols : a.SlotSymbols) : Ends defineHelpers a fun _ _ => True := by
  refine .after_get (.after_modify (Ends.bind (P := fun _ _ => True) (.imp (.forIn
    (I := fun a' => a'.DefinesData ∧ a'.SlotSymbols ∧
      a'.declarations = { a.declarations with pending := [] })
    ⟨hdata, hsymbols, rfl⟩ fun r hr a₁ h₁ => ?_) fun _ _ _ => trivial) fun _ _ _ => .pure trivial))
  obtain ⟨hdata₁, hsymbols₁, hd⟩ := h₁
  have hhelper := ht.pending r hr
  obtain ⟨s, b, hs, hb, -⟩ := helper_body_typed hhelper
  have hs₁ : a₁.declarations.function r.function = .ok s := by rw [hd, ← hs]; rfl
  obtain ⟨s', hs', hname, -⟩ := hl.pending r hr
  have hdefine : Ends (define b) a₁ fun _ _ => True :=
    ends_define_helper hdata₁ hsymbols₁ ⟨s, hs₁, hb⟩ (hd ▸ hhelper.mono (.refl _))
      (hd ▸ hs') hname
  refine .after_get (.after (succeeds_check.2 ⟨hs₁, rfl⟩) (.after (succeeds_check.2 ⟨hb, rfl⟩) ?_))
  have hdefine : Ends (define b) a₁ fun _ a₂ => a₁.Enters a₂ ∧ a₂.declarations = a₁.declarations := by
    refine hdefine.of_succeeds fun u a₂ hrun _ => ⟨?_, (appends_define hrun).declarations⟩
    have henters := enters_define (a := a₁) b
    rwa [show (define b).run.run a₁ = _ from hrun] at henters
  refine hdefine.bind fun _ a₂ ⟨henters, hd₂⟩ => .pure ⟨rfl, fun i hi => ?_, ?_, hd₂.trans hd⟩
  · exact henters.definedData (hdata₁ i (henters.data ▸ hi))
  · refine henters.symbols (fun x hx => ?_) hsymbols₁
    rw [hd] at hx
    exact hl.data x hx

end Helpers

end Assembler

end Dataflow.Code
