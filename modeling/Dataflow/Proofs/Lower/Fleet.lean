import Dataflow.Lower.Fleet
import Dataflow.Proofs.Lower.Compiled
import Dataflow.Proofs.Lower.Solution

/-!
# Instances are independent and keep nothing but their last output

Compiled code has one result for each input, whatever is in the output buffer and whatever the
surroundings of a call are, and it leaves the data of its module as they were. Hence in a fleet of
instances each computation gives that result, and each instance keeps the result of its own last
computation. Binding an instance clears its output, but only before the first computation, when there
are zeros in it anyway. A call that is refused leaves everything as it was.
-/

namespace Dataflow

open Code (Body Executable Machine Surroundings)

/-- A call with enough fuel always ends in the same way; with less it may not come to its end. -/
theorem Code.Executable.callBody_cases {x : Executable} {b : Body} {ω : Surroundings}
    {args : List Code.Argument} {r : Code.CallResult} {n : Nat}
    (h : ∀ fuel ≥ n, x.callBody b fuel args ω = (r, x)) (fuel : Nat) :
    x.callBody b fuel args ω = (.unfinished, x) ∨ x.callBody b fuel args ω = (r, x) := by
  have hall := h _ (le_max_right fuel n)
  unfold callBody at hall ⊢
  cases hrun : Machine.run (x.program ω) fuel (x.called b args ω) with
  | running m => exact Or.inl rfl
  | finished result memory =>
      rw [Machine.run_of_le (by simp) hrun (le_max_left fuel n)] at hall
      exact Or.inr hall
  | trapped t =>
      rw [Machine.run_of_le (by simp) hrun (le_max_left fuel n)] at hall
      exact Or.inr hall

namespace Compiled

/-- On the inputs of the transform a call of the code ends with the value of `f`, whatever is in the
output buffer and whatever the surroundings are, and leaves the code as it is. -/
def Realizes (c : Compiled) (f : Values → Values) : Prop :=
  ∀ x : Values, x.elemType = c.inputType → x.length = c.inputSize →
    (f x).elemType = c.outputType ∧ (f x).length = c.outputSize ∧
    ∀ w : Values, w.elemType = c.outputType → w.length = c.outputSize →
      ∀ ω, ∃ n, ∀ fuel ≥ n, c.code.callBody c.entry fuel [.buffer x, .buffer w] ω =
        (.returned none [x, f x], c.code)

section Results

variable {log : List Key} {graph : Graph} {kind : Key → Builtin} {inputs : List (String × Key)}
  {outputs : List (String × Selection)} {t₀ t : Transform} {plan : Lower.Plan} {c : Compiled}
  {remarks : List Remark} {a : Code.Assembler}

theorem of_ofAssembler (h : ofAssembler t plan a = .ok c) :
    t.inputType = .ok c.inputType ∧ t.inputSize = .ok c.inputSize ∧
      c.output = .zeros c.outputType c.outputSize := by
  obtain ⟨_, -, h₁⟩ := bind_eq_ok_iff.1 h
  obtain ⟨inputType, htype, h₂⟩ := bind_eq_ok_iff.1 h₁
  obtain ⟨_, -, h₃⟩ := bind_eq_ok_iff.1 h₂
  obtain ⟨inputSize, hsize, h₄⟩ := bind_eq_ok_iff.1 h₃
  obtain ⟨_, -, h₅⟩ := bind_eq_ok_iff.1 h₄
  obtain ⟨_, -, h₆⟩ := bind_eq_ok_iff.1 h₅
  obtain rfl := Except.ok.inj h₆
  exact ⟨htype, hsize, rfl⟩

/-- Compiled code realizes a function. -/
theorem exists_realizes (hgraph : Graph.History log graph) (hkind : graph.BuiltFrom kind)
    (htyped : ∀ k, (kind k).Typed) (hnew : Transform.new graph inputs outputs = .ok t₀)
    (hports : graph.Small) (houtput : ∀ s, t₀.output 0 = .ok s → s.size < 2 ^ 31)
    (ht : Transform.Follows log kind t₀ t) (hcompile : compile t plan = (.ok c, remarks)) :
    ∃ f, c.Realizes f := by
  have hin := Transform.isInput_of_new hnew hkind
  obtain ⟨rfl, ⟨e₀, he₀, -⟩, -⟩ := Transform.new_eq_ok hnew
  obtain ⟨s, order, a, a₁, a₂, hbuilds, hassembled⟩ := compile_eq_ok hcompile
  obtain ⟨-, -, hctype, hcsize⟩ := ofAssembler_eq_ok hassembled
  obtain ⟨hitype, hisize, -⟩ := of_ofAssembler hassembled
  have hs : t₀.output 0 = .ok s := (ht.output_eq 0).symm.trans hbuilds.output
  have hfit := (Transform.fitsAll_of_new hnew hs).1
  obtain ⟨o, ho, hotype⟩ := map_eq_ok_iff.1 hitype
  obtain ⟨o', ho', hosize⟩ := map_eq_ok_iff.1 hisize
  obtain rfl : o = o' := Except.ok.inj (ho.symm.trans ho')
  obtain ⟨o₀, ho₀, htype₀, hsize₀⟩ := ht.exists_inputOutlet ho
  have hresult : ∀ x : Values, x.elemType = c.inputType → x.length = c.inputSize →
      ∃ v : Values, v.elemType = c.outputType ∧ v.length = c.outputSize ∧
        ∀ w : Values, w.elemType = c.outputType → w.length = c.outputSize →
          ∀ ω, ∃ n, ∀ fuel ≥ n, c.code.callBody c.entry fuel [.buffer x, .buffer w] ω =
            (.returned none [x, v], c.code) := by
    intro x hxt hxl
    have hinputType : t₀.inputType = .ok x.elemType :=
      map_eq_ok_iff.2 ⟨o₀, ho₀, by rw [htype₀, hotype, hxt]⟩
    have hinputSize : t₀.inputSize = .ok x.length :=
      map_eq_ok_iff.2 ⟨o₀, ho₀, by rw [hsize₀, hosize, hxl]⟩
    obtain ⟨v, g, hdone⟩ := ht.exists_solution hgraph hkind htyped hin hs hfit hbuilds.sorted
      hinputType hinputSize
    obtain ⟨hvt, hvl⟩ := output_eq ht hdone hfit hctype hcsize
    refine ⟨v, hvt.symm, hvl.symm, fun w hwt hwl ω => ?_⟩
    exact (callBody_of_solution ht hin (Graph.live_of_entry he₀) hports hcompile hdone hfit
      (houtput s hs) hwt hwl ω).2
  have : Nonempty Values := ⟨.reals []⟩
  choose! f hf using hresult
  exact ⟨f, hf⟩

end Results

section Kin

variable {c m : Compiled} {f : Values → Values} {x : Values} {u : ElemType}

structure Kin (c m : Compiled) : Prop where
  code : m.code = c.code
  entry : m.entry = c.entry
  inputType : m.inputType = c.inputType
  inputSize : m.inputSize = c.inputSize
  outputType : m.outputType = c.outputType
  outputSize : m.outputSize = c.outputSize

structure Rests (m : Compiled) (last : Option Values) : Prop where
  output : m.output = last.getD (.zeros m.outputType m.outputSize)
  unbound : m.bound = false → last = none
  elemType : m.output.elemType = m.outputType
  length : m.output.length = m.outputSize

/-- Binding an instance discards no result. -/
theorem Rests.succeeds_bind {last : Option Values} (h : m.Rests last) (hu : u = m.inputType) :
    Succeeds (Compiled.bind u) m () { m with bound := true } := by
  have hzeros : m.bound = false → m.output = .zeros m.outputType m.outputSize := by
    intro hb
    have hout := h.output
    rwa [h.unbound hb, Option.getD_none] at hout
  unfold Compiled.bind
  cases hb : m.bound with
  | true =>
      have hsame : m = { m with bound := true } := by rw [← hb]
      simpa [hu, hb] using hsame
  | false => simp [hu, hb, ← hzeros hb]

theorem fails_bind (hu : u ≠ m.inputType) :
    Fails (Compiled.bind u) m (.mismatch (.element m.inputType) (.element u)) m := by
  simp [Compiled.bind, hu]

/-- An instance is asked for a computation that it can do. -/
def Admits (m : Compiled) (u : ElemType) (x : Values) : Prop :=
  u = m.outputType ∧ x.length = m.inputSize ∧ x.elemType = m.inputType

theorem Kin.admits_iff (h : c.Kin m) : m.Admits u x ↔ c.Admits u x := by
  unfold Admits
  rw [h.outputType, h.inputSize, h.inputType]

theorem Rests.lastOutput_eq {last : Option Values} (h : m.Rests last) (u : ElemType) :
    m.lastOutput u = if u = m.outputType then .ok m.output
      else .error (.mismatch (.element u) (.element m.outputType)) := by
  unfold lastOutput Values.expect
  rw [h.elemType]
  simp only [eq_comm]

theorem Kin.rests_result (h : c.Kin m) (hf : c.Realizes f) (hx : m.Admits u x) :
    Rests { m with bound := true, output := f x } (some (f x)) := by
  obtain ⟨ht, hl, -⟩ := hf x (hx.2.2.trans h.inputType) (hx.2.1.trans h.inputSize)
  exact ⟨rfl, nofun, ht.trans h.outputType.symm, hl.trans h.outputSize.symm⟩

theorem Rests.bound {last : Option Values} (h : m.Rests last) :
    Rests { m with bound := true } last :=
  ⟨h.output, nofun, h.elemType, h.length⟩

theorem rests_fresh (m : Compiled) : m.fresh.Rests none :=
  ⟨rfl, fun _ => rfl, Values.elemType_zeros .., Values.length_zeros ..⟩

theorem succeeds_run {fuel : Nat} {ω : Surroundings} {v : Values}
    (h : m.code.callBody m.entry fuel [.buffer x, .buffer m.output] ω =
      (.returned none [x, v], m.code)) :
    Succeeds (run fuel x ω) m (.returned none [x, v]) { m with output := v } := by
  simp [run, h]

theorem succeeds_run_of_unfinished {fuel : Nat} {ω : Surroundings}
    (h : m.code.callBody m.entry fuel [.buffer x, .buffer m.output] ω = (.unfinished, m.code)) :
    Succeeds (run fuel x ω) m .unfinished m := by
  simp [run, h]

/-- A computation that is asked for as it can be done binds the instance and runs the code. -/
theorem Rests.succeeds_compute {last : Option Values} (h : m.Rests last) (hx : m.Admits u x)
    {fuel : Nat} {ω : Surroundings} {r : Code.CallResult} {m' : Compiled}
    (hrun : Succeeds (run fuel x ω) { m with bound := true } r m') :
    Succeeds (compute fuel u x ω) m r m' := by
  obtain ⟨hu, hl, ht⟩ := hx
  simp only [compute, Dataflow.succeeds_bind, succeeds_get, succeeds_refuse]
  exact ⟨m, m, ⟨rfl, rfl⟩, not_not.2 hu, not_not.2 hl, (), _, h.succeeds_bind ht, hrun⟩

/-- A computation that cannot be done is refused, and changes nothing. -/
theorem exists_fails_compute (hx : ¬ m.Admits u x) (fuel : Nat) (ω : Surroundings) :
    ∃ r, Fails (compute fuel u x ω) m r m := by
  simp only [compute, Dataflow.fails_bind, fails_refuse, succeeds_get, fails_get]
  by_cases hu : u = m.outputType
  · by_cases hl : x.length = m.inputSize
    · have ht : x.elemType ≠ m.inputType := fun ht => hx ⟨hu, hl, ht⟩
      exact ⟨_, .inr ⟨m, m, ⟨rfl, rfl⟩, .inr ⟨not_not.2 hu, .inr ⟨not_not.2 hl,
        .inl (fails_bind ht)⟩⟩⟩⟩
    · exact ⟨_, .inr ⟨m, m, ⟨rfl, rfl⟩, .inr ⟨not_not.2 hu, .inl ⟨hl, rfl, rfl⟩⟩⟩⟩
  · exact ⟨_, .inr ⟨m, m, ⟨rfl, rfl⟩, .inl ⟨hu, rfl, rfl⟩⟩⟩

/-- A computation that is admitted ends with the value of `f` or runs out of fuel, and with enough
fuel it does not. -/
theorem Kin.compute_cases (hk : c.Kin m) (hf : c.Realizes f) {last : Option Values}
    (hm : m.Rests last) (hx : m.Admits u x) (ω : Surroundings) :
    (∀ fuel, Succeeds (compute fuel u x ω) m .unfinished { m with bound := true } ∨
      Succeeds (compute fuel u x ω) m (.returned none [x, f x])
        { m with bound := true, output := f x }) ∧
    ∃ fuel, Succeeds (compute fuel u x ω) m (.returned none [x, f x])
      { m with bound := true, output := f x } := by
  obtain ⟨-, hl, ht⟩ := id hx
  obtain ⟨-, -, hrun⟩ := hf x (ht.trans hk.inputType) (hl.trans hk.inputSize)
  obtain ⟨n, hn⟩ := hrun m.output (hm.elemType.trans hk.outputType)
    (hm.length.trans hk.outputSize) ω
  rw [← hk.code, ← hk.entry] at hn
  have hreturns : ∀ fuel, m.code.callBody m.entry fuel [.buffer x, .buffer m.output] ω =
      (.returned none [x, f x], m.code) → Succeeds (compute fuel u x ω) m (.returned none [x, f x])
        { m with bound := true, output := f x } :=
    fun fuel h => hm.succeeds_compute hx (succeeds_run h)
  refine ⟨fun fuel => ?_, n, hreturns n (hn n le_rfl)⟩
  rcases Code.Executable.callBody_cases hn fuel with h | h
  · exact Or.inl (hm.succeeds_compute hx (succeeds_run_of_unfinished h))
  · exact Or.inr (hreturns fuel h)

end Kin

end Compiled

namespace Fleet

def Steps (F : Fleet) (call : Call) (reply : Reply) (F' : Fleet) : Prop :=
  ∃ fuel ω, F.call fuel ω call = (reply, F') ∧ reply ≠ .unfinished

/-- Calls on the instances of a fleet, one after the other, with their replies. The latest call is
the first one of the list. -/
inductive Runs (F₀ : Fleet) : List (Call × Reply) → Fleet → Prop
  | nil : Runs F₀ [] F₀
  | cons {events F call reply F'} (h : Runs F₀ events F) (hs : Steps F call reply F') :
    Runs F₀ ((call, reply) :: events) F'

def lastResult (i : Nat) : List (Call × Reply) → Option Values
  | [] => none
  | (.compute j _ _, .values v) :: events => if j = i then some v else lastResult i events
  | _ :: events => lastResult i events

def Call.Suits (c : Compiled) : Call → Prop
  | .fork _ => True
  | .bind _ u => u = c.inputType
  | .compute _ u x => c.Admits u x
  | .lastOutput _ u => u = c.outputType

section Steps

variable {c m : Compiled} {f : Values → Values} {F F' : Fleet} {events : List (Call × Reply)}
  {call : Call} {reply : Reply} {i : Nat}

inductive Does (c : Compiled) (f : Values → Values) (F : Fleet) (m : Compiled) :
    Call → Reply → Fleet → Prop
  | fork (i : Nat) :
    Does c f F m (.fork i) .done { F with instances := F.instances ++ [m.fresh] }
  | bind (i : Nat) (u : ElemType) (hu : u = c.inputType) :
    Does c f F m (.bind i u) .done (F.put i { m with bound := true })
  | compute (i : Nat) (u : ElemType) (x : Values) (hx : c.Admits u x) :
    Does c f F m (.compute i u x) (.values (f x)) (F.put i { m with bound := true, output := f x })
  | lastOutput (i : Nat) (u : ElemType) (hu : u = c.outputType) :
    Does c f F m (.lastOutput i u) (.values m.output) F
  | refuse (call : Call) (r : Fault) (h : ¬ call.Suits c) : Does c f F m call (.refused r) F

structure Tracks (c : Compiled) (f : Values → Values) (events : List (Call × Reply)) (F : Fleet) :
    Prop where
  code : F.code = c.code
  synced : ∀ m ∈ F.instances, m.code = c.code
  kin : ∀ i m, F.member? i = some m → c.Kin m
  rests : ∀ i m, F.member? i = some m → m.Rests (lastResult i events)
  absent : ∀ i, F.member? i = none → lastResult i events = none
  computed : ∀ i u x v, (.compute i u x, .values v) ∈ events → c.Admits u x ∧ v = f x

theorem lastResult_cons (h : ∀ u x v, call = .compute i u x → reply ≠ .values v) :
    lastResult i ((call, reply) :: events) = lastResult i events := by
  cases call with
  | compute j u x =>
      cases reply with
      | values v =>
          have hj : j ≠ i := by
            rintro rfl
            exact h u x v rfl rfl
          exact if_neg hj
      | _ => rfl
  | _ => rfl

theorem code_of_member (h : F.member? i = some m) : m.code = F.code := by
  obtain ⟨m', -, rfl⟩ := Option.map_eq_some_iff.1 h
  rfl

theorem member?_put {m' : Compiled} (h : F.member? i = some m) (hcode : m'.code = F.code) (j : Nat) :
    (F.put i m').member? j = if j = i then some m' else F.member? j := by
  obtain ⟨m₀, hm₀, -⟩ := Option.map_eq_some_iff.1 h
  obtain ⟨hi, -⟩ := List.getElem?_eq_some_iff.1 hm₀
  unfold member? put
  dsimp only
  rw [List.getElem?_set, hcode]
  by_cases hj : j = i
  · rw [if_pos hj.symm, if_pos (hj ▸ hi), if_pos hj, Option.map_some, ← hcode]
  · rw [if_neg (Ne.symm hj), if_neg hj]

theorem member?_append {m' : Compiled} (hcode : m'.code = F.code) (j : Nat) :
    member? { F with instances := F.instances ++ [m'] } j =
      if j = F.instances.length then some m' else F.member? j := by
  unfold member?
  dsimp only
  by_cases hj : j = F.instances.length
  · rw [if_pos hj, hj, List.getElem?_concat_length, Option.map_some, ← hcode]
  · rw [if_neg hj]
    rcases Nat.lt_or_gt_of_ne hj with hlt | hgt
    · rw [List.getElem?_append_left hlt]
    · rw [List.getElem?_eq_none (by simp; omega), List.getElem?_eq_none (by omega)]

/-- Putting an instance back that has not changed changes nothing. -/
theorem Tracks.put_eq (h : Tracks c f events F) (hm : F.member? i = some m) : F.put i m = F := by
  obtain ⟨m₀, hm₀, rfl⟩ := Option.map_eq_some_iff.1 hm
  obtain ⟨hi, rfl⟩ := List.getElem?_eq_some_iff.1 hm₀
  have hcode : F.code = F.instances[i].code := h.code.trans (h.synced _ (List.getElem_mem hi)).symm
  unfold put
  dsimp only
  rw [hcode, List.set_getElem_self, ← hcode]

theorem call_of_fails (hm : F.member? call.target = some m) {fuel : Nat} {ω : Surroundings}
    {r : Fault} {m' : Compiled} (h : Fails (call.answer fuel ω) m r m') :
    F.call fuel ω call = (.refused r, F.put call.target m') := by
  unfold Fleet.call
  rw [hm]
  dsimp only
  rw [show (call.answer fuel ω).run.run m = _ from h]

theorem call_of_succeeds (hm : F.member? call.target = some m) {fuel : Nat} {ω : Surroundings}
    {m' : Compiled} (h : Succeeds (call.answer fuel ω) m reply m') (hcall : ∀ i, call ≠ .fork i) :
    F.call fuel ω call = (reply, F.put call.target m') := by
  unfold Fleet.call
  rw [hm]
  dsimp only
  rw [show (call.answer fuel ω).run.run m = _ from h]
  cases call with
  | fork i => exact absurd rfl (hcall i)
  | _ => rfl

theorem Tracks.call_fork (h : Tracks c f events F) (hm : F.member? i = some m) (fuel : Nat)
    (ω : Surroundings) :
    F.call fuel ω (.fork i) = (.done, { F with instances := F.instances ++ [m.fresh] }) := by
  have hput := h.put_eq hm
  simp only [Fleet.call, Call.target, hm]
  change (Reply.done, { F.put i m with instances := (F.put i m).instances ++ [m.fresh] }) = _
  rw [hput]

theorem succeeds_values {u : ElemType} {v : Values} (h : m.lastOutput u = .ok v) :
    Succeeds (Call.answer.values u) m (.values v) m := by
  simp [Call.answer.values, h]

theorem fails_values {u : ElemType} {r : Fault} (h : m.lastOutput u = .error r) :
    Fails (Call.answer.values u) m r m := by
  simp [Call.answer.values, h]

theorem succeeds_answer_compute {fuel : Nat} {ω : Surroundings} {u : ElemType} {x v : Values}
    {args : List Values} {m' : Compiled}
    (h : Succeeds (Compiled.compute fuel u x ω) m (.returned none args) m')
    (hv : m'.lastOutput u = .ok v) :
    Succeeds (Call.answer fuel ω (.compute i u x)) m (.values v) m' :=
  Dataflow.succeeds_bind.2 ⟨_, _, h, succeeds_values hv⟩

/-- What a call does when the fleet is in order. -/
theorem Tracks.does (h : Tracks c f events F) (hf : c.Realizes f) (hs : Steps F call reply F') :
    (F.member? call.target = none ∧ reply = .absent ∧ F' = F) ∨
      ∃ m, F.member? call.target = some m ∧ Does c f F m call reply F' := by
  obtain ⟨fuel, ω, hcall, hended⟩ := hs
  cases hm : F.member? call.target with
  | none =>
      unfold Fleet.call at hcall
      rw [hm] at hcall
      obtain ⟨rfl, rfl⟩ := Prod.mk.inj hcall
      exact Or.inl ⟨rfl, rfl, rfl⟩
  | some m =>
      refine Or.inr ⟨m, rfl, ?_⟩
      have hkin := h.kin _ m hm
      have hrests := h.rests _ m hm
      have hrefused : ∀ {r : Fault}, Fails (call.answer fuel ω) m r m → ¬ call.Suits c →
          Does c f F m call reply F' := by
        intro r hr hsuits
        rw [call_of_fails hm hr, h.put_eq hm] at hcall
        obtain ⟨rfl, rfl⟩ := Prod.mk.inj hcall
        exact .refuse _ _ hsuits
      cases call with
      | fork i =>
          rw [h.call_fork (i := i) hm] at hcall
          obtain ⟨rfl, rfl⟩ := Prod.mk.inj hcall
          exact .fork i
      | bind i u =>
          by_cases hu : u = m.inputType
          · have hbound := hrests.succeeds_bind hu
            rw [call_of_succeeds hm (Dataflow.succeeds_bind.2 ⟨_, _, hbound, succeeds_pure.2 ⟨rfl, rfl⟩⟩)
              nofun] at hcall
            obtain ⟨rfl, rfl⟩ := Prod.mk.inj hcall
            exact .bind i u (hu.trans hkin.inputType)
          · exact hrefused (Dataflow.fails_bind.2 (.inl (Compiled.fails_bind hu)))
              fun hu' => hu (hu'.trans hkin.inputType.symm)
      | compute i u x =>
          by_cases hx : m.Admits u x
          · rcases (hkin.compute_cases hf hrests hx ω).1 fuel with hrun | hrun
            · rw [call_of_succeeds hm (Dataflow.succeeds_bind.2 ⟨_, _, hrun,
                succeeds_pure.2 ⟨rfl, rfl⟩⟩) nofun] at hcall
              exact absurd (Prod.mk.inj hcall).1.symm hended
            · have hout : Compiled.lastOutput { m with bound := true, output := f x } u =
                  .ok (f x) :=
                ((hkin.rests_result hf hx).lastOutput_eq u).trans (if_pos hx.1)
              rw [call_of_succeeds hm (succeeds_answer_compute hrun hout) nofun] at hcall
              obtain ⟨rfl, rfl⟩ := Prod.mk.inj hcall
              exact .compute i u x (hkin.admits_iff.1 hx)
          · obtain ⟨r, hr⟩ := Compiled.exists_fails_compute hx fuel ω
            exact hrefused (Dataflow.fails_bind.2 (.inl hr)) fun hx' => hx (hkin.admits_iff.2 hx')
      | lastOutput i u =>
          have hlast := hrests.lastOutput_eq u
          by_cases hu : u = m.outputType
          · rw [if_pos hu] at hlast
            rw [call_of_succeeds hm (succeeds_values hlast) nofun, h.put_eq hm] at hcall
            obtain ⟨rfl, rfl⟩ := Prod.mk.inj hcall
            exact .lastOutput i u (hu.trans hkin.outputType)
          · rw [if_neg hu] at hlast
            exact hrefused (fails_values hlast) fun hu' => hu (hu'.trans hkin.outputType.symm)

theorem Tracks.of_lastResult_eq (h : Tracks c f events F)
    (hlast : ∀ i, lastResult i ((call, reply) :: events) = lastResult i events)
    (hcall : ∀ i u x v, (Call.compute i u x, Reply.values v) ≠ (call, reply)) :
    Tracks c f ((call, reply) :: events) F where
  code := h.code
  synced := h.synced
  kin := h.kin
  rests i m hm := hlast i ▸ h.rests i m hm
  absent i hm := hlast i ▸ h.absent i hm
  computed i u x v hv := h.computed i u x v ((List.mem_cons.1 hv).resolve_left (hcall i u x v))

theorem Tracks.put (h : Tracks c f events F) (hm : F.member? i = some m) {m' : Compiled}
    (hkin : c.Kin m') (hrests : m'.Rests (lastResult i ((call, reply) :: events)))
    (hlast : ∀ j ≠ i, lastResult j ((call, reply) :: events) = lastResult j events)
    (hcall : ∀ j u x v, (Call.compute j u x, Reply.values v) = (call, reply) →
      c.Admits u x ∧ v = f x) :
    Tracks c f ((call, reply) :: events) (F.put i m') := by
  have hmembers := member?_put hm (hkin.code.trans h.code.symm)
  refine ⟨hkin.code, fun m₁ hm₁ => ?_, fun j m₁ hm₁ => ?_, fun j m₁ hm₁ => ?_, fun j hj => ?_,
    fun j u x v hv => ?_⟩
  · rcases List.mem_or_eq_of_mem_set hm₁ with hm₁ | rfl
    · exact h.synced m₁ hm₁
    · exact hkin.code
  · rw [hmembers] at hm₁
    split at hm₁
    · rwa [← Option.some.inj hm₁]
    · exact h.kin j m₁ hm₁
  · rw [hmembers] at hm₁
    split at hm₁
    case isTrue hj => rwa [← Option.some.inj hm₁, hj]
    case isFalse hj => exact hlast j hj ▸ h.rests j m₁ hm₁
  · rw [hmembers] at hj
    split at hj
    case isTrue => cases hj
    case isFalse hne => exact (hlast j hne).trans (h.absent j hj)
  · rcases List.mem_cons.1 hv with hv | hv
    · exact hcall j u x v hv
    · exact h.computed j u x v hv

/-- The fleet goes on to be in order, whatever is called. -/
theorem Tracks.step (h : Tracks c f events F) (hf : c.Realizes f) (hs : Steps F call reply F') :
    Tracks c f ((call, reply) :: events) F' := by
  rcases h.does hf hs with ⟨-, rfl, rfl⟩ | ⟨m, hm, hdoes⟩
  · exact h.of_lastResult_eq (fun i => lastResult_cons nofun) (by simp)
  · have hkin := h.kin _ m hm
    have hcode := code_of_member hm
    cases hdoes with
    | fork i =>
        have hkept : ∀ j, lastResult j ((Call.fork i, Reply.done) :: events) =
            lastResult j events := fun j => lastResult_cons nofun
        have hmembers : ∀ j, member? { F with instances := F.instances ++ [m.fresh] } j =
            if j = F.instances.length then some m.fresh else F.member? j :=
          member?_append hcode
        have hnew : F.member? F.instances.length = none := by simp [member?]
        refine ⟨h.code, fun m' hm' => ?_, fun j m' hm' => ?_, fun j m' hm' => ?_, fun j hm' => ?_,
          fun j u x v hv => ?_⟩
        · rcases List.mem_append.1 hm' with hm' | hm'
          · exact h.synced m' hm'
          · obtain rfl := List.mem_singleton.1 hm'
            exact hkin.code
        · rw [hmembers] at hm'
          split at hm'
          · obtain rfl := Option.some.inj hm'
            exact ⟨hkin.code, hkin.entry, hkin.inputType, hkin.inputSize, hkin.outputType,
              hkin.outputSize⟩
          · exact h.kin j m' hm'
        · rw [hkept]
          rw [hmembers] at hm'
          split at hm'
          case isTrue hj =>
            obtain rfl := Option.some.inj hm'
            rw [hj, h.absent _ hnew]
            exact Compiled.rests_fresh m
          case isFalse => exact h.rests j m' hm'
        · rw [hkept]
          rw [hmembers] at hm'
          split at hm'
          · cases hm'
          · exact h.absent j hm'
        · exact h.computed j u x v ((List.mem_cons.1 hv).resolve_left nofun)
    | bind i u hu =>
        have hlast : ∀ j, lastResult j ((Call.bind i u, Reply.done) :: events) =
            lastResult j events := fun j => lastResult_cons nofun
        exact h.put hm ⟨hkin.code, hkin.entry, hkin.inputType, hkin.inputSize, hkin.outputType,
          hkin.outputSize⟩ (hlast i ▸ (h.rests i m hm).bound) (fun j _ => hlast j) nofun
    | compute i u x hx =>
        have hlast : lastResult i ((Call.compute i u x, Reply.values (f x)) :: events) =
            some (f x) := if_pos rfl
        refine h.put hm ⟨hkin.code, hkin.entry, hkin.inputType, hkin.inputSize, hkin.outputType,
          hkin.outputSize⟩ (hlast ▸ hkin.rests_result hf (hkin.admits_iff.2 hx)) (fun j hj => ?_) ?_
        · refine lastResult_cons fun u' x' v hcall => ?_
          obtain ⟨rfl, -⟩ := Call.compute.inj hcall
          exact absurd rfl hj
        · rintro j u' x' v hcall
          obtain ⟨hcall, hreply⟩ := Prod.mk.inj hcall
          obtain ⟨-, rfl, rfl⟩ := Call.compute.inj hcall
          exact ⟨hx, Reply.values.inj hreply⟩
    | lastOutput i u hu => exact h.of_lastResult_eq (fun i => lastResult_cons nofun) nofun
    | refuse call r hr => exact h.of_lastResult_eq (fun i => lastResult_cons (by simp)) (by simp)

theorem Runs.tracks (h : Runs F events F') (hf : c.Realizes f) (hstart : Tracks c f [] F) :
    Tracks c f events F' := by
  induction h with
  | nil => exact hstart
  | cons _ hs ih => exact ih.step hf hs

theorem tracks_ofCompiled (h : c.output = .zeros c.outputType c.outputSize) :
    Tracks c f [] (ofCompiled c) := by
  have hmember : ∀ i m, (ofCompiled c).member? i = some m → m = c := by
    intro i m hm
    cases i with
    | zero => exact (Option.some.inj hm).symm
    | succ i => cases hm
  refine ⟨rfl, fun m hm => ?_, fun i m hm => ?_, fun i m hm => ?_, fun _ _ => rfl, nofun⟩
  · rw [List.mem_singleton.1 hm]
  · rw [hmember i m hm]
    exact ⟨rfl, rfl, rfl, rfl, rfl, rfl⟩
  · rw [hmember i m hm]
    exact ⟨h, fun _ => rfl, h ▸ Values.elemType_zeros .., h ▸ Values.length_zeros ..⟩

theorem exists_member (hi : i < F.instances.length) : ∃ m, F.member? i = some m :=
  ⟨_, by rw [member?, List.getElem?_eq_getElem hi, Option.map_some]⟩

/-- An instance gives back the result of its own last computation. -/
theorem Tracks.call_lastOutput (h : Tracks c f events F) (hi : i < F.instances.length) (fuel : Nat)
    (ω : Surroundings) : F.call fuel ω (.lastOutput i c.outputType) =
      (.values ((lastResult i events).getD (.zeros c.outputType c.outputSize)), F) := by
  obtain ⟨m, hm⟩ := exists_member hi
  have hkin := h.kin i m hm
  have hrests := h.rests i m hm
  have hlast := hrests.lastOutput_eq c.outputType
  rw [if_pos hkin.outputType.symm, hrests.output, hkin.outputType, hkin.outputSize] at hlast
  have hcall : F.call fuel ω (.lastOutput i c.outputType) = (.values _, F.put i m) :=
    call_of_succeeds hm (succeeds_values hlast) nofun
  rw [hcall, h.put_eq hm]

/-- An instance that is asked for a computation that it can do gives the result in the end. -/
theorem Tracks.exists_call (h : Tracks c f events F) (hf : c.Realizes f)
    (hi : i < F.instances.length) {u : ElemType} {x : Values} (hx : c.Admits u x)
    (ω : Surroundings) : ∃ fuel F', F.call fuel ω (.compute i u x) = (.values (f x), F') := by
  obtain ⟨m, hm⟩ := exists_member hi
  have hkin := h.kin i m hm
  have hx' := hkin.admits_iff.2 hx
  obtain ⟨-, fuel, hrun⟩ := hkin.compute_cases hf (h.rests i m hm) hx' ω
  have hlast := ((hkin.rests_result hf hx').lastOutput_eq u).trans (if_pos hx'.1)
  exact ⟨fuel, _, call_of_succeeds hm (succeeds_answer_compute hrun hlast) nofun⟩

/-- After the calls the instances are independent of each other and have kept nothing but their
last outputs. -/
structure Independent (c : Compiled) (f : Values → Values) (events : List (Call × Reply))
    (F : Fleet) : Prop where
  computed : ∀ i u x v, (.compute i u x, .values v) ∈ events → c.Admits u x ∧ v = f x
  output : ∀ i < F.instances.length, ∀ fuel ω,
    F.call fuel ω (.lastOutput i c.outputType) =
      (.values ((lastResult i events).getD (.zeros c.outputType c.outputSize)), F)
  forked : ∀ i F', Steps F (.fork i) .done F' → F'.instances.length = F.instances.length + 1 ∧
    ∀ fuel ω, F'.call fuel ω (.lastOutput F.instances.length c.outputType) =
      (.values (.zeros c.outputType c.outputSize), F')
  refused : ∀ call r F', Steps F call (.refused r) F' → ¬ call.Suits c ∧ F' = F
  untrapped : ∀ call t F', ¬ Steps F call (.trapped t) F'
  answered : ∀ i < F.instances.length, ∀ u x, c.Admits u x → ∀ ω,
    ∃ fuel F', F.call fuel ω (.compute i u x) = (.values (f x), F')

theorem Tracks.independent (h : Tracks c f events F) (hf : c.Realizes f) :
    Independent c f events F where
  computed := h.computed
  output _ hi := h.call_lastOutput hi
  forked i F' hs := by
    have hnew : F.member? F.instances.length = none := by simp [member?]
    have hnone : lastResult F.instances.length ((.fork i, .done) :: events) = none :=
      h.absent _ hnew
    have h' := h.step hf hs
    rcases h.does hf hs with ⟨-, hreply, -⟩ | ⟨m, -, hdoes⟩
    · cases hreply
    · cases hdoes
      refine ⟨by simp, fun fuel ω => ?_⟩
      rw [h'.call_lastOutput (by simp), hnone, Option.getD_none]
  refused call r F' hs := by
    rcases h.does hf hs with ⟨-, hreply, -⟩ | ⟨m, -, hdoes⟩
    · cases hreply
    · cases hdoes with
      | refuse _ _ hr => exact ⟨hr, rfl⟩
  untrapped call t F' hs := by
    rcases h.does hf hs with ⟨-, hreply, -⟩ | ⟨m, -, hdoes⟩
    · cases hreply
    · cases hdoes
  answered _ hi _ _ hx := h.exists_call hf hi hx

end Steps

section Independence

variable {log : List Key} {graph : Graph} {kind : Key → Builtin} {inputs : List (String × Key)}
  {outputs : List (String × Selection)} {t₀ : Transform} {plan : Lower.Plan} {c : Compiled}
  {remarks : List Remark}

/-- The instances of a compiled transform are independent and keep nothing but their last outputs.
There is one function that all computations give the value of, however the calls on the instances
are interleaved. -/
theorem independent_of_runs (hgraph : Graph.History log graph) (hkind : graph.BuiltFrom kind)
    (htyped : ∀ k, (kind k).Typed) (hnew : Transform.new graph inputs outputs = .ok t₀)
    (hports : graph.Small) (houtput : ∀ s, t₀.output 0 = .ok s → s.size < 2 ^ 31)
    (before : List Transform.Call)
    (hcompile : Compiled.compile (before.foldl Transform.after t₀) plan = (.ok c, remarks)) :
    ∃ f : Values → Values, ∀ events F, Runs (ofCompiled c) events F →
      Independent c f events F := by
  obtain ⟨rfl, -⟩ := Transform.new_eq_ok hnew
  have hfollows : Transform.Follows log kind t₀ t₀ := ⟨rfl, rfl, .refl hgraph hkind⟩
  obtain ⟨f, hf⟩ := Compiled.exists_realizes hgraph hkind htyped hnew hports houtput
    (hfollows.foldl before) hcompile
  obtain ⟨s, order, a, a₁, a₂, -, hassembled⟩ := Compiled.compile_eq_ok hcompile
  obtain ⟨-, -, hzeros⟩ := Compiled.of_ofAssembler hassembled
  exact ⟨f, fun events F hruns => (hruns.tracks hf (tracks_ofCompiled hzeros)).independent hf⟩

theorem typed_doublingKind (k : Key) : (Compiled.doublingKind k).Typed := by
  unfold Compiled.doublingKind
  split
  · simp [Builtin.Typed, Builtin.inlets, Builtin.operandType, Compiled.upperPair, Selection.ofSpan]
  · simp [Builtin.Typed, Builtin.inlets]

section Doubling

def play (F : Fleet) (fuel : Nat) : List Call → List Reply × Fleet
  | [] => ([], F)
  | call :: calls =>
    let (replies, F) := play F fuel calls
    let (reply, F) := F.call fuel {} call
    (reply :: replies, F)

theorem runs_play {F : Fleet} {fuel : Nat} {calls : List Call}
    (h : ∀ r ∈ (F.play fuel calls).1, r ≠ .unfinished) :
    Runs F (calls.zip (F.play fuel calls).1) (F.play fuel calls).2 := by
  induction calls with
  | nil => exact .nil
  | cons call calls ih =>
      exact .cons (ih fun r hr => h r (List.mem_cons_of_mem _ hr))
        ⟨fuel, {}, rfl, h _ List.mem_cons_self⟩

def Reply.integers? : Reply → Option (Option (List Int32))
  | .done => some none
  | .values (.integers xs) => some (some xs)
  | _ => none

def Reply.ofIntegers : Option (List Int32) → Reply
  | none => .done
  | some xs => .values (.integers xs)

theorem Reply.eq_ofIntegers {r : Reply} {xs : Option (List Int32)} (h : r.integers? = some xs) :
    r = .ofIntegers xs := by
  unfold Reply.integers? at h
  split at h
  · obtain rfl := Option.some.inj h
    rfl
  · obtain rfl := Option.some.inj h
    rfl
  · cases h

/-- A second instance, a computation on each of the two, and what they hold then. -/
def interleaved : List Call :=
  [.lastOutput 1 .integer, .lastOutput 0 .integer, .compute 1 .integer (.integers [1, 5, 6]),
    .compute 0 .integer (.integers [2, 3, 4]), .fork 0]

def interleavedReplies : List Reply :=
  [.values (.integers [10, 12]), .values (.integers [6, 8]), .values (.integers [10, 12]),
    .values (.integers [6, 8]), .done]

theorem exists_runs_interleaved : ∃ c remarks F,
    Compiled.compile Compiled.doubler = (.ok c, remarks) ∧
      Runs (ofCompiled c) (interleaved.zip interleavedReplies) F := by
  have hreplies : (Compiled.compile Compiled.doubler).1.toOption.map (fun c =>
      ((ofCompiled c).play 100 interleaved).1.map Reply.integers?) =
      some ([some [10, 12], some [6, 8], some [10, 12], some [6, 8], none].map some) := by
    simp only [Compiled.compile, Compiled.run_build_doubler]
    decide +kernel
  obtain ⟨c, hc, hreplies⟩ := Option.map_eq_some_iff.1 hreplies
  have hplay : ((ofCompiled c).play 100 interleaved).1 = interleavedReplies := by
    simp only [List.map_eq_cons_iff, List.map_eq_nil_iff, List.map_cons, List.map_nil] at hreplies
    obtain ⟨r₁, _, h, hr₁, r₂, _, rfl, hr₂, r₃, _, rfl, hr₃, r₄, _, rfl, hr₄, r₅, _, rfl, hr₅, rfl⟩ :=
      hreplies
    rw [h, Reply.eq_ofIntegers hr₁, Reply.eq_ofIntegers hr₂, Reply.eq_ofIntegers hr₃,
      Reply.eq_ofIntegers hr₄, Reply.eq_ofIntegers hr₅]
    rfl
  refine ⟨c, _, _, Prod.ext (toOption_eq_some_iff.1 hc) rfl, hplay ▸ runs_play ?_⟩
  rw [hplay]
  intro r hr
  unfold interleavedReplies at hr
  fin_cases hr <;> simp

/-- Two instances of a sum of two numbers with themselves, each with an output of its own. -/
theorem independent_doubler : ∃ c f F, (Compiled.compile Compiled.doubler).1 = .ok c ∧
    Runs (ofCompiled c) (interleaved.zip interleavedReplies) F ∧
    Independent c f (interleaved.zip interleavedReplies) F := by
  obtain ⟨c, remarks, F, hcompile, hruns⟩ := exists_runs_interleaved
  obtain ⟨f, hf⟩ := independent_of_runs (Graph.history_replay _)
    (fun k e he => (Compiled.entry_doubling he).1) typed_doublingKind Compiled.new_doubling
    Compiled.small_doubling (fun _ => Compiled.size_doubler) [] hcompile
  exact ⟨c, f, F, by rw [hcompile], hruns, hf _ _ hruns⟩

end Doubling

end Independence

end Fleet

end Dataflow
