import Dataflow.Proofs.Code.Activation
import Dataflow.Proofs.Code.Once

/-!
# What a frame knows

While a block runs, its frame holds what the instructions before the next one have computed: no later
instruction of the block changes that. A variable holds what has last been read from it or written to
it. And a value that is a constant is that constant wherever the frame has got to, since no other
instruction defines it.
-/

namespace Dataflow.Code

inductive Instr.Ties (x : VarId) (v : ValueId) : Instr → Prop
  | read : Ties x v (.readVar v x)
  | write : Ties x v (.writeVar x v)

namespace Frame

variable {f f' : Frame} {b : Body} {v u : ValueId} {w : Word} {i : Instr} {k : Block} {q : Nat}
  {memory memory' : Memory} {x : VarId}

theorem get_set_self (hv : v.index < f.values.size) : (f.set v w).get v = .ok w := by
  simp only [get, set, Array.getElem?_setIfInBounds_self_of_lt hv]

theorem get_set_of_ne (h : u ≠ v) : (f.set v w).get u = f.get u := by
  have hindex : v.index ≠ u.index := fun hindex => h (congrArg ValueId.mk hindex.symm)
  simp only [get, set, Array.getElem?_setIfInBounds_ne hindex]

theorem getBool_eq_ok {r : Bool} (h : f.getBool v = .ok r) : f.get v = .ok (.bool r) := by
  obtain ⟨w, hw, h⟩ := bind_eq_ok_iff.1 h
  cases w with
  | bool r' =>
      obtain rfl := Except.ok.inj h
      exact hw
  | _ => cases h

theorem require_eq_ok {r : Option Word} (h : require r = .ok w) : r = some w := by
  cases r with
  | none => cases h
  | some w' => rw [Except.ok.inj h]

def Knows (f : Frame) : Instr → Prop
  | .const result value => f.get result = .ok (.ofLiteral value)
  | .stackAddress result _ | .datumAddress result _ => ∃ r, f.get result = .ok (.ptr ⟨r, 0⟩)
  | .binary result op lhs rhs => ∃ a c w, f.get lhs = .ok a ∧ f.get rhs = .ok c ∧
      Word.binary op a c = some w ∧ f.get result = .ok w
  | .compare result op lhs rhs => ∃ a c r, f.get lhs = .ok a ∧ f.get rhs = .ok c ∧
      Word.compare op a c = some r ∧ f.get result = .ok (.bool r)
  | .select result condition ifTrue ifFalse => ∃ r a c, f.get condition = .ok (.bool r) ∧
      f.get ifTrue = .ok a ∧ f.get ifFalse = .ok c ∧ f.get result = .ok (if r then a else c)
  | _ => True

theorem Knows.congr (h : f.Knows i) (hget : ∀ v, v ∈ i.uses ∨ i.defines = some v →
    f'.get v = f.get v) : f'.Knows i := by
  cases i with
  | const result value => exact (hget _ (.inr rfl)).trans h
  | stackAddress result slot =>
      obtain ⟨r, hr⟩ := h
      exact ⟨r, (hget _ (.inr rfl)).trans hr⟩
  | datumAddress result datum =>
      obtain ⟨r, hr⟩ := h
      exact ⟨r, (hget _ (.inr rfl)).trans hr⟩
  | binary result op lhs rhs =>
      obtain ⟨a, c, w, ha, hc, hw, hr⟩ := h
      exact ⟨a, c, w, (hget _ (.inl (by simp [Instr.uses]))).trans ha,
        (hget _ (.inl (by simp [Instr.uses]))).trans hc, hw, (hget _ (.inr rfl)).trans hr⟩
  | compare result op lhs rhs =>
      obtain ⟨a, c, r, ha, hc, hr, hw⟩ := h
      exact ⟨a, c, r, (hget _ (.inl (by simp [Instr.uses]))).trans ha,
        (hget _ (.inl (by simp [Instr.uses]))).trans hc, hr, (hget _ (.inr rfl)).trans hw⟩
  | select result condition ifTrue ifFalse =>
      obtain ⟨r, a, c, hr, ha, hc, hw⟩ := h
      exact ⟨r, a, c, (hget _ (.inl (by simp [Instr.uses]))).trans hr,
        (hget _ (.inl (by simp [Instr.uses]))).trans ha,
        (hget _ (.inl (by simp [Instr.uses]))).trans hc, (hget _ (.inr rfl)).trans hw⟩
  | _ => trivial

/-- The instruction has been run. It has changed the value that it defines and the variable that it
writes, and no others. -/
structure Runs (f : Frame) (i : Instr) (f' : Frame) : Prop where
  body : f'.body = f.body
  block : f'.block = f.block
  size : f'.values.size = f.values.size
  varSize : f'.vars.size = f.vars.size
  get : ∀ v, i.defines ≠ some v → f'.get v = f.get v
  vars : ∀ x, (∀ u, i ≠ .writeVar x u) → f'.vars[x.index]? = f.vars[x.index]?
  knows : f'.Knows i
  ties : ∀ x v, i.Ties x v → ∀ w, f'.vars[x.index]? = some w → f'.get v = .ok w

/-- An instruction that gives a value its word, and does nothing else. -/
theorem runs_set {result : ValueId} (hi : i.defines = some result)
    (hknows : (f.set result w).Knows i)
    (hties : ∀ x v, i.Ties x v → ∀ w', f.vars[x.index]? = some w' → (f.set result w).get v = .ok w') :
    Runs f i (f.set result w) where
  body := rfl
  block := rfl
  size := Array.size_setIfInBounds
  varSize := rfl
  get _ hv := get_set_of_ne fun heq => hv (heq ▸ hi)
  vars _ _ := rfl
  knows := hknows
  ties := hties

/-- An instruction does what it says, unless it uses what it defines. -/
theorem runs_of_perform {ω : Surroundings} (h : Machine.perform ω f memory i = .ok (f', memory'))
    (hlt : ∀ v, i.defines = some v → v.index < f.values.size)
    (huses : ∀ v, i.defines = some v → v ∉ i.uses) : Runs f i f' := by
  have hne : ∀ {v result}, i.defines = some result → v ∈ i.uses → v ≠ result :=
    fun hi hv heq => huses _ hi (heq ▸ hv)
  cases i with
  | call result function args => cases h
  | location text =>
      obtain ⟨rfl, -⟩ := Prod.mk.inj (Except.ok.inj h)
      exact ⟨rfl, rfl, rfl, rfl, fun _ _ => rfl, fun _ _ => rfl, trivial, fun _ _ ht => by cases ht⟩
  | const result value =>
      obtain ⟨rfl, -⟩ := Prod.mk.inj (Except.ok.inj h)
      exact runs_set rfl (get_set_self (hlt _ rfl)) (by rintro _ _ ⟨⟩)
  | stackAddress result slot =>
      obtain ⟨rfl, -⟩ := Prod.mk.inj (Except.ok.inj h)
      exact runs_set rfl ⟨_, get_set_self (hlt _ rfl)⟩ (by rintro _ _ ⟨⟩)
  | datumAddress result datum =>
      obtain ⟨rfl, -⟩ := Prod.mk.inj (Except.ok.inj h)
      exact runs_set rfl ⟨_, get_set_self (hlt _ rfl)⟩ (by rintro _ _ ⟨⟩)
  | offset result base index scale =>
      obtain ⟨p, -, h⟩ := bind_eq_ok_iff.1 h
      obtain ⟨w, -, h⟩ := bind_eq_ok_iff.1 h
      split at h
      · obtain ⟨rfl, -⟩ := Prod.mk.inj (Except.ok.inj h)
        exact runs_set rfl trivial (by rintro _ _ ⟨⟩)
      · cases h
  | binary result op lhs rhs =>
      obtain ⟨a, ha, h⟩ := bind_eq_ok_iff.1 h
      obtain ⟨c, hc, h⟩ := bind_eq_ok_iff.1 h
      obtain ⟨w, hw, h⟩ := bind_eq_ok_iff.1 h
      obtain ⟨rfl, -⟩ := Prod.mk.inj (Except.ok.inj h)
      refine runs_set rfl ⟨a, c, w, ?_, ?_, require_eq_ok hw, get_set_self (hlt _ rfl)⟩
        (by rintro _ _ ⟨⟩)
      · exact (get_set_of_ne (hne rfl (by simp [Instr.uses]))).trans ha
      · exact (get_set_of_ne (hne rfl (by simp [Instr.uses]))).trans hc
  | compare result op lhs rhs =>
      obtain ⟨a, ha, h⟩ := bind_eq_ok_iff.1 h
      obtain ⟨c, hc, h⟩ := bind_eq_ok_iff.1 h
      obtain ⟨w, hw, h⟩ := bind_eq_ok_iff.1 h
      obtain ⟨rfl, -⟩ := Prod.mk.inj (Except.ok.inj h)
      obtain ⟨r, hr, rfl⟩ := Option.map_eq_some_iff.1 (require_eq_ok hw)
      refine runs_set rfl ⟨a, c, r, ?_, ?_, hr, get_set_self (hlt _ rfl)⟩ (by rintro _ _ ⟨⟩)
      · exact (get_set_of_ne (hne rfl (by simp [Instr.uses]))).trans ha
      · exact (get_set_of_ne (hne rfl (by simp [Instr.uses]))).trans hc
  | select result condition ifTrue ifFalse =>
      obtain ⟨r, hr, h⟩ := bind_eq_ok_iff.1 h
      obtain ⟨a, ha, h⟩ := bind_eq_ok_iff.1 h
      obtain ⟨c, hc, h⟩ := bind_eq_ok_iff.1 h
      obtain ⟨rfl, -⟩ := Prod.mk.inj (Except.ok.inj h)
      refine runs_set rfl ⟨r, a, c, ?_, ?_, ?_, get_set_self (hlt _ rfl)⟩ (by rintro _ _ ⟨⟩)
      · exact (get_set_of_ne (hne rfl (by simp [Instr.uses]))).trans (getBool_eq_ok hr)
      · exact (get_set_of_ne (hne rfl (by simp [Instr.uses]))).trans ha
      · exact (get_set_of_ne (hne rfl (by simp [Instr.uses]))).trans hc
  | readVar result y =>
      simp only [Machine.perform] at h
      split at h
      swap
      · cases h
      next w hw =>
      obtain ⟨rfl, -⟩ := Prod.mk.inj (Except.ok.inj h)
      refine runs_set rfl trivial fun x v ht w' hw' => ?_
      cases ht
      obtain rfl := Option.some.inj (hw.symm.trans hw')
      exact get_set_self (hlt _ rfl)
  | writeVar y value =>
      obtain ⟨w, hw, h⟩ := bind_eq_ok_iff.1 h
      obtain ⟨rfl, -⟩ := Prod.mk.inj (Except.ok.inj h)
      refine ⟨rfl, rfl, rfl, Array.size_setIfInBounds, fun _ _ => rfl, fun x hx => ?_, trivial,
        fun x v ht w' hw' => ?_⟩
      · exact Array.getElem?_setIfInBounds_ne fun heq => hx value (congrArg (Instr.writeVar · value)
          (congrArg VarId.mk heq))
      · cases ht
        have hw' : (f.vars.setIfInBounds y.index w)[y.index]? = some w' := hw'
        rw [Array.getElem?_setIfInBounds, if_pos rfl] at hw'
        split at hw'
        · obtain rfl := Option.some.inj hw'
          exact hw
        · cases hw'
  | load result address offset =>
      repeat obtain ⟨_, -, h⟩ := bind_eq_ok_iff.1 h
      obtain ⟨rfl, -⟩ := Prod.mk.inj (Except.ok.inj h)
      exact runs_set rfl trivial (by rintro _ _ ⟨⟩)
  | store address offset value =>
      repeat obtain ⟨_, -, h⟩ := bind_eq_ok_iff.1 h
      obtain ⟨rfl, -⟩ := Prod.mk.inj (Except.ok.inj h)
      exact ⟨rfl, rfl, rfl, rfl, fun _ _ => rfl, fun _ _ => rfl, trivial, fun _ _ ht => by cases ht⟩
  | unary result op operand =>
      repeat obtain ⟨_, -, h⟩ := bind_eq_ok_iff.1 h
      obtain ⟨rfl, -⟩ := Prod.mk.inj (Except.ok.inj h)
      exact runs_set rfl trivial (by rintro _ _ ⟨⟩)
  | cast result value =>
      repeat obtain ⟨_, -, h⟩ := bind_eq_ok_iff.1 h
      obtain ⟨rfl, -⟩ := Prod.mk.inj (Except.ok.inj h)
      exact runs_set rfl trivial (by rintro _ _ ⟨⟩)

/-- A call changes nothing before it answers, and then only what it defines. -/
theorem runs_call (f : Frame) {result : Option ValueId} {function : FunctionId} {args : List ValueId} :
    Runs f (.call result function args) (Machine.advance f) :=
  ⟨rfl, rfl, rfl, rfl, fun _ _ => rfl, fun _ _ => rfl, trivial, nofun⟩

theorem runs_answer (f : Frame) {function : FunctionId} {args : List ValueId} :
    Runs f (.call (some v) function args) (f.set v w) :=
  runs_set rfl trivial nofun

/-- The frame stands in a body that has been given addresses of whole buffers, and it knows what it has
run of its block. -/
structure Settled (b : Body) (f : Frame) : Prop where
  body : f.body = b
  size : f.values.size = b.valueTypes.size
  varSize : f.vars.size = b.varTypes.size
  args : ∀ v ∈ b.args, ∃ r, f.get v = .ok (.ptr ⟨r, 0⟩)
  consts : ∀ (g : Nat) (k : Block) (q : Nat) (v : ValueId) (l : Literal), b.blocks[g]? = some k →
    k.instrs[q]? = some (.const v l) → ∀ w, f.get v = .ok w → w = .ofLiteral l
  knows : ∀ k, b.blocks[f.block.index]? = some k → ∀ p < f.next, ∀ i, k.instrs[p]? = some i →
    f.Knows i
  ties : ∀ k, b.blocks[f.block.index]? = some k → ∀ p < f.next, ∀ i, k.instrs[p]? = some i →
    ∀ x v, i.Ties x v → (∀ q u, p < q → q < f.next → k.instrs[q]? ≠ some (.writeVar x u)) →
      ∀ w, f.vars[x.index]? = some w → f.get v = .ok w

/-- An instruction of the block has been run, and the frame stands behind it. -/
theorem Settled.runs (h : f.Settled b) (hb : b.Single) (ho : b.checkOrder = .ok ()) (hruns : Runs f i f')
    (hk : b.blocks[f.block.index]? = some k) (hi : k.instrs[q]? = some i) (hq : q ≤ f.next)
    (hle : f.next ≤ q + 1) (hnext : f'.next = q + 1) : f'.Settled b := by
  -- What an earlier instruction of the block has to do with stays as it is.
  have hsame : ∀ p < q, ∀ j, k.instrs[p]? = some j → ∀ v, v ∈ j.uses ∨ j.defines = some v →
      f'.get v = f.get v := by
    intro p hp j hj v hv
    refine hruns.get v fun hdef => ?_
    rcases hv with hv | hv
    · exact hb.not_mem_uses ho hk hj hi hp.le hdef hv
    · exact hb.defines_ne hk hj hi hp hdef hv
  refine ⟨hruns.body.trans h.body, hruns.size.trans h.size, hruns.varSize.trans h.varSize,
    fun v hv => ?_, fun g k' p v l hk' hj w hw => ?_, fun k' hk' p hp j hj => ?_,
    fun k' hk' p hp j hj x v ht hwrites w hw => ?_⟩
  · obtain ⟨r, hr⟩ := h.args v hv
    exact ⟨r, (hruns.get v fun hdef => hb.apart ⟨k, i, hk, hi, hdef⟩ hv).trans hr⟩
  · by_cases hdef : i.defines = some v
    · obtain ⟨rfl, rfl⟩ := hb.once ⟨k, i, hk, hi, hdef⟩ ⟨k', _, hk', hj, rfl⟩
      obtain rfl := Option.some.inj (hk.symm.trans hk')
      obtain rfl := Option.some.inj (hi.symm.trans hj)
      exact Except.ok.inj (hw.symm.trans hruns.knows)
    · exact h.consts g k' p v l hk' hj w ((hruns.get v hdef).symm.trans hw)
  · rw [hruns.block] at hk'
    obtain rfl := Option.some.inj (hk.symm.trans hk')
    rcases Nat.lt_succ_iff_lt_or_eq.1 (hp.trans_eq hnext) with hlt | rfl
    · exact (h.knows k hk p (hlt.trans_le hq) j hj).congr (hsame p hlt j hj)
    · obtain rfl := Option.some.inj (hi.symm.trans hj)
      exact hruns.knows
  · rw [hruns.block] at hk'
    obtain rfl := Option.some.inj (hk.symm.trans hk')
    rcases Nat.lt_succ_iff_lt_or_eq.1 (hp.trans_eq hnext) with hlt | rfl
    · have hvars := hruns.vars x fun u hu => hwrites q u hlt (by omega) (hi.trans (congrArg some hu))
      have hget : f'.get v = f.get v := by
        refine hsame p hlt j hj v ?_
        cases ht with
        | read => exact .inr rfl
        | write => exact .inl (List.mem_singleton_self v)
      refine hget.trans (h.ties k hk p (hlt.trans_le hq) j hj x v ht (fun q' u hpq hq' => ?_) w
        (hvars.symm.trans hw))
      exact hwrites q' u hpq (by omega)
    · obtain rfl := Option.some.inj (hi.symm.trans hj)
      exact hruns.ties x v ht w hw

theorem Settled.goto (h : f.Settled b) (target : BlockId) : (Machine.goto f target).Settled b :=
  ⟨h.body, h.size, h.varSize, h.args, h.consts, fun _ _ p hp => absurd hp (Nat.not_lt_zero p),
    fun _ _ p hp => absurd hp (Nat.not_lt_zero p)⟩

theorem index_ne_of_mem {vs : List ValueId} (hu : u ∈ vs) (hv : v ∉ vs) : u.index ≠ v.index := by
  intro heq
  obtain rfl : u = v := congrArg ValueId.mk heq
  exact hv hu

/-- Only the values that are bound get words. -/
theorem getElem?_bind_of_ne {n : Nat} {vs : List ValueId} (hvs : ∀ v ∈ vs, v.index ≠ n)
    (values : Array (Option Word)) (words : List Word) : (bind values vs words)[n]? = values[n]? := by
  induction vs generalizing values words with
  | nil => rfl
  | cons v vs ih =>
      cases words with
      | nil => rfl
      | cons w words =>
          rw [bind, ih (fun u hu => hvs u (List.mem_cons_of_mem v hu)),
            Array.getElem?_setIfInBounds_ne (hvs v List.mem_cons_self)]

/-- Every value that is bound gets one of the words, if there are enough of them. -/
theorem getElem?_bind_of_mem {P : Word → Prop} {vs : List ValueId} {words : List Word}
    {values : Array (Option Word)} (hlength : vs.length ≤ words.length) (hwords : ∀ w ∈ words, P w)
    (hlt : ∀ v ∈ vs, v.index < values.size) (hv : v ∈ vs) :
    ∃ w, (bind values vs words)[v.index]? = some (some w) ∧ P w := by
  induction vs generalizing values words with
  | nil => cases hv
  | cons u vs ih =>
      cases words with
      | nil => exact absurd hlength (Nat.not_succ_le_zero _)
      | cons w words =>
          have hlt' : ∀ v ∈ vs, v.index < (values.setIfInBounds u.index (some w)).size := fun v hv =>
            (hlt v (List.mem_cons_of_mem u hv)).trans_eq Array.size_setIfInBounds.symm
          by_cases hmem : v ∈ vs
          · exact ih (Nat.le_of_succ_le_succ hlength) (fun w hw => hwords w (List.mem_cons_of_mem _ hw))
              hlt' hmem
          · obtain rfl := (List.mem_cons.1 hv).resolve_right hmem
            refine ⟨w, ?_, hwords w List.mem_cons_self⟩
            rw [bind, getElem?_bind_of_ne fun u hu => index_ne_of_mem hu hmem]
            exact Array.getElem?_setIfInBounds_self_of_lt (hlt v List.mem_cons_self)

/-- What is given to a body are addresses of whole buffers. -/
theorem settled_enter (hb : b.Single) {words : List Word} (base : Nat)
    (hlength : b.args.length ≤ words.length) (hwords : ∀ w ∈ words, ∃ r, w = .ptr ⟨r, 0⟩) :
    (enter b words base).Settled b := by
  refine ⟨rfl, ?_, Array.size_map, fun v hv => ?_, fun g k q v l hk hi w hw => ?_,
    fun _ _ p hp => absurd hp (Nat.not_lt_zero p), fun _ _ p hp => absurd hp (Nat.not_lt_zero p)⟩
  · rw [enter, Machine.size_bind, Array.size_replicate]
  · have hlt : ∀ v ∈ b.args, v.index < (Array.replicate b.valueTypes.size (none : Option Word)).size :=
      fun v hv => (hb.args v hv).trans_eq Array.size_replicate.symm
    obtain ⟨_, hw, r, rfl⟩ := getElem?_bind_of_mem hlength hwords hlt hv
    exact ⟨r, by simp only [get, enter, hw]⟩
  · -- A constant is no argument, so that it has not been computed yet.
    have hargs : ∀ u ∈ b.args, u.index ≠ v.index := fun u hu =>
      index_ne_of_mem hu (hb.apart ⟨k, _, hk, hi, rfl⟩)
    have hnone : (enter b words base).values[v.index]? = some none := by
      rw [enter, getElem?_bind_of_ne hargs, Array.getElem?_replicate, if_pos (hb.lt ⟨k, _, hk, hi, rfl⟩)]
    simp only [get, hnone, reduceCtorEq] at hw

end Frame

end Dataflow.Code
