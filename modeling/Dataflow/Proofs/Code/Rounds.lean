import Dataflow.Proofs.Code.Knowledge
import Dataflow.Proofs.Code.LoopRange
import Dataflow.Proofs.Code.LoopShape
import Dataflow.Proofs.Code.Simulation

/-!
# Rounds of loops

Wherever a run gets to, the variable of a loop holds the number of the round: it is zero when the head
is entered for the first time, below the count when the body is, and one more when the head is entered
again. Other calls come and go meanwhile, but they leave the frame that waits for them as it is.
-/

namespace Dataflow.Code

open CountedLoop (Laid rangeInstrs headInstrs raiseInstrs)

/-- The variable of a loop is there. -/
theorem CountedLoop.Laid.exists_var {f : Frame} {b : Body} {n count : Nat} {p : LoopParts}
    (h : Laid b n p count) (hf : f.vars.size = b.varTypes.size) :
    ∃ w, f.vars[p.var.index]? = some w := by
  refine ⟨_, Array.getElem?_eq_getElem ?_⟩
  rw [hf]
  exact (Array.getElem?_eq_some_iff.1 h.declared).1

namespace Frame

variable {f f' : Frame} {b : Body} {i : Instr} {k : Block} {q n m count : Nat} {p : LoopParts}
  {x : VarId} {t : Terminator} {target : BlockId}

def Holds (f : Frame) (x : VarId) (n : Nat) : Prop := f.vars[x.index]? = some (.i32 (Int32.ofNat n))

/-- In the blocks of a loop the variable holds the number of the round. It is raised by the last
instruction of its block. -/
structure Counts (f : Frame) (n : Nat) (p : LoopParts) (count : Nat) : Prop where
  head : f.block.index = n + 1 → ∃ m ≤ count, f.Holds p.var m
  round : f.block.index = n + 2 → ∃ m < count, f.Holds p.var m
  raise : f.block.index = n + 3 → ∃ m < count, f.Holds p.var (if f.next ≤ 4 then m else m + 1)

theorem getElem?_instrs {is : List Instr} (h : k.instrs.toList = is) (q : Nat) :
    k.instrs[q]? = is[q]? := by
  rw [← Array.getElem?_toList, h]

theorem ne_writeVar_headInstrs {i c : ValueId} (u : ValueId) :
    (headInstrs p i c)[q]? ≠ some (.writeVar x u) := by
  rcases q with _ | _ | q <;> simp [headInstrs]

theorem eq_of_raiseInstrs {i s r m u : ValueId}
    (h : (raiseInstrs p i s r m)[q]? = some (.writeVar x u)) : q = 4 ∧ u = m := by
  rcases q with _ | _ | _ | _ | _ | q <;> simp_all [raiseInstrs]

theorem eq_of_rangeInstrs {z u : ValueId} {start bound step : Int32}
    (h : (rangeInstrs p z start bound step)[q]? = some (.writeVar x u)) : q = 1 := by
  rcases q with _ | _ | _ | _ | _ | q <;> simp_all [rangeInstrs]

/-- The numbers that a loop goes by are constants of its first block. -/
theorem Settled.numbers (h : f.Settled b) (hl : Laid b n p count) :
    (∀ w, f.get p.step = .ok w → w = .i32 1) ∧
      (∀ w, f.get p.limit = .ok w → w = .i32 (CountedLoop.saturate (count - 1))) ∧
      ∀ w, f.get p.bound = .ok w → w = .i32 (Int32.ofNat count) := by
  obtain ⟨k, z, hk, hinstrs, -⟩ := hl.first
  have hinstr := getElem?_instrs hinstrs
  have hcount : (Int32.ofNat count).toInt = count := Int32.toInt_ofNat_of_lt hl.lt
  refine ⟨h.consts n k 2 _ _ hk (hinstr 2), fun w hw => ?_, h.consts n k 4 _ _ hk (hinstr 4)⟩
  rw [h.consts n k 3 _ _ hk (hinstr 3) w hw, hcount]
  rfl

/-- What the variable is raised to is the number of the next round. -/
theorem select_raised {w : Word} {r : Bool} (hm : m < count) (hcount : count < 2 ^ 31)
    (hw : Word.binary .add (.i32 (Int32.ofNat m)) (.i32 1) = some w)
    (hr : Word.compare .less (.i32 (Int32.ofNat m)) (.i32 (CountedLoop.saturate (count - 1))) =
      some r) :
    (if r then w else .i32 (Int32.ofNat count)) = .i32 (Int32.ofNat (m + 1)) := by
  have hlimit : (CountedLoop.saturate ((count : Int) - 1)).toInt = count - 1 := by
    rw [CountedLoop.toInt_saturate]
    exact Ieee.clamp_eq (by omega) (by omega)
  have hless := (Word.isInt_i32 (Int32.ofNat m)).compare_less
    (Word.isInt_i32 (CountedLoop.saturate ((count : Int) - 1)))
  rw [hr, hlimit, Int32.toInt_ofNat_of_lt (hm.trans hcount)] at hless
  obtain rfl := Option.some.inj hless
  split
  · rw [Int32.ofNat_add]
    exact (Option.some.inj hw).symm
  · next hlast =>
      have hle : ¬ (m : Int) < count - 1 := fun hlt => hlast (decide_eq_true hlt)
      rw [show count = m + 1 by omega]

/-- At the end of its block the number of the next round has been computed. -/
theorem Settled.raised (h : f.Settled b) (hl : Laid b n p count) {i s r u : ValueId}
    (hk : b.blocks[f.block.index]? = some k) (hinstrs : k.instrs.toList = raiseInstrs p i s r u)
    (hnext : f.next = 4) (hm : m < count) (hvar : f.Holds p.var m) :
    f.get u = .ok (.i32 (Int32.ofNat (m + 1))) := by
  have hinstr := getElem?_instrs hinstrs
  obtain ⟨hstep, hlimit, hbound⟩ := h.numbers hl
  have hi : f.get i = .ok (.i32 (Int32.ofNat m)) := by
    refine h.ties k hk 0 (by omega) _ (hinstr 0) p.var i .read (fun q u _ hq hwrite => ?_) _ hvar
    have := (eq_of_raiseInstrs ((hinstr q).symm.trans hwrite)).1
    omega
  obtain ⟨a, c, w, ha, hc, hw, hs⟩ := h.knows k hk 1 (by omega) _ (hinstr 1)
  obtain rfl := Except.ok.inj (hi.symm.trans ha)
  obtain rfl := hstep c hc
  obtain ⟨a', c', r', ha', hc', hr', hr⟩ := h.knows k hk 2 (by omega) _ (hinstr 2)
  obtain rfl := Except.ok.inj (hi.symm.trans ha')
  obtain rfl := hlimit c' hc'
  obtain ⟨r'', a'', c'', hr'', ha'', hc'', hu⟩ := h.knows k hk 3 (by omega) _ (hinstr 3)
  obtain rfl := Word.bool.inj (Except.ok.inj (hr.symm.trans hr''))
  obtain rfl := Except.ok.inj (hs.symm.trans ha'')
  obtain rfl := hbound c'' hc''
  exact hu.trans (congrArg Except.ok (select_raised hm hl.lt hw hr'))

/-- The next instruction of the block has been run. -/
theorem Counts.runs (h : f.Counts n p count) (hs : f.Settled b) (hl : Laid b n p count)
    (hruns : Runs f i f') (hk : b.blocks[f.block.index]? = some k)
    (hi : k.instrs[f.next]? = some i) (hnext : f'.next = f.next + 1) : f'.Counts n p count := by
  have hkeeps : (∀ u, i ≠ .writeVar p.var u) → ∀ {m}, f.Holds p.var m → f'.Holds p.var m :=
    fun hi _ hvar => (hruns.vars p.var hi).trans hvar
  refine ⟨fun hblock => ?_, fun hblock => ?_, fun hblock => ?_⟩
  all_goals rw [hruns.block] at hblock
  · obtain ⟨m, hm, hvar⟩ := h.head hblock
    obtain ⟨k', i', c, hk', hinstrs, -⟩ := hl.head
    obtain rfl := Option.some.inj (hk.symm.trans (hblock ▸ hk'))
    refine ⟨m, hm, hkeeps (fun u hu => ?_) hvar⟩
    exact ne_writeVar_headInstrs u ((getElem?_instrs hinstrs _).symm.trans (hi.trans (congrArg some hu)))
  · obtain ⟨m, hm, hvar⟩ := h.round hblock
    obtain ⟨k', hk', -, hwrites⟩ := hl.round
    obtain rfl := Option.some.inj (hk.symm.trans (hblock ▸ hk'))
    exact ⟨m, hm, hkeeps (fun u hu => hwrites _ u (hi.trans (congrArg some hu))) hvar⟩
  · obtain ⟨m, hm, hvar⟩ := h.raise hblock
    obtain ⟨k', i', s, r, u, hk', hinstrs, -⟩ := hl.raise
    obtain rfl := Option.some.inj (hk.symm.trans (hblock ▸ hk'))
    have hinstr := getElem?_instrs hinstrs f.next
    have hlt : f.next < 5 := by
      have hlt := (List.getElem?_eq_some_iff.1 (hinstr.symm.trans hi)).1
      exact hlt
    rw [if_pos (by omega)] at hvar
    refine ⟨m, hm, ?_⟩
    rcases Nat.lt_or_eq_of_le (Nat.le_of_lt_succ hlt) with hlt | hlast
    · rw [hnext, if_pos (Nat.succ_le_of_lt hlt)]
      refine hkeeps (fun u hu => ?_) hvar
      have := (eq_of_raiseInstrs (hinstr.symm.trans (hi.trans (congrArg some hu)))).1
      omega
    · -- The last instruction writes the number of the next round.
      have hu := hs.raised hl hk hinstrs hlast hm hvar
      rw [hinstr, hlast] at hi
      obtain rfl : Instr.writeVar p.var u = i := Option.some.inj hi
      obtain ⟨w, hw⟩ := hl.exists_var (hruns.varSize.trans hs.varSize)
      have hget := hruns.ties p.var u .write w hw
      rw [hruns.get u (by simp [Instr.defines]), hu] at hget
      rw [hnext, hlast, if_neg (by decide), Holds, hw, Except.ok.inj hget]

/-- At the end of the first block the variable holds zero. -/
theorem Settled.starts (h : f.Settled b) (hl : Laid b n p count) (hblock : f.block.index = n)
    (hnext : 5 ≤ f.next) : f.Holds p.var 0 := by
  obtain ⟨k, z, hk, hinstrs, -⟩ := hl.first
  have hk : b.blocks[f.block.index]? = some k := hblock ▸ hk
  have hinstr := getElem?_instrs hinstrs
  obtain ⟨w, hw⟩ := hl.exists_var h.varSize
  have hz := h.ties k hk 1 (by omega) _ (hinstr 1) p.var z .write (fun q u hq _ hwrite => by
    have := eq_of_rangeInstrs ((hinstr q).symm.trans hwrite)
    omega) w hw
  rw [h.knows k hk 0 (by omega) _ (hinstr 0)] at hz
  exact hw.trans (congrArg some (Except.ok.inj hz).symm)

/-- At the end of the head it is known whether there is another round. -/
theorem Settled.tests {i c : ValueId} (h : f.Settled b) (hl : Laid b n p count)
    (hk : b.blocks[f.block.index]? = some k) (hinstrs : k.instrs.toList = headInstrs p i c)
    (hnext : 2 ≤ f.next) (hm : m ≤ count) (hvar : f.Holds p.var m) :
    f.get c = .ok (.bool (decide ((m : Int) < count))) := by
  have hinstr := getElem?_instrs hinstrs
  have hi : f.get i = .ok (.i32 (Int32.ofNat m)) :=
    h.ties k hk 0 (by omega) _ (hinstr 0) p.var i .read (fun q u _ _ hwrite =>
      ne_writeVar_headInstrs u ((hinstr q).symm.trans hwrite)) _ hvar
  obtain ⟨a, d, r, ha, hd, hr, hc⟩ := h.knows k hk 1 (by omega) _ (hinstr 1)
  obtain rfl := Except.ok.inj (hi.symm.trans ha)
  obtain rfl := (h.numbers hl).2.2 d hd
  have hless := (Word.isInt_i32 (Int32.ofNat m)).compare_less (Word.isInt_i32 (Int32.ofNat count))
  rw [hr, Int32.toInt_ofNat_of_lt hl.lt, Int32.toInt_ofNat_of_lt (hm.trans_lt hl.lt)] at hless
  rw [hc, Option.some.inj hless]

/-- The block has been left for another one. -/
theorem Counts.goto (h : f.Counts n p count) (hs : f.Settled b) (hl : Laid b n p count)
    (hk : b.blocks[f.block.index]? = some k) (hend : k.instrs[f.next]? = none)
    (ht : k.terminator = some t) (hpicks : Machine.Picks f t target) :
    (Machine.goto f target).Counts n p count := by
  have hedge : b.Edge f.block.index target.index := by
    refine ⟨k, hk, ?_⟩
    rw [Block.targets, ht]
    exact hpicks.mem
  have hle : k.instrs.toList.length ≤ f.next := Array.getElem?_eq_none_iff.1 hend
  refine ⟨fun hblock => ?_, fun hblock => ?_, fun hblock => ?_⟩
  all_goals rw [show target.index = _ from hblock] at hedge
  · -- The head is entered for the first time or after a round.
    rcases hl.toHead _ hedge with hfrom | hfrom
    · obtain ⟨k', z, hk', hinstrs, -⟩ := hl.first
      obtain rfl := Option.some.inj (hk.symm.trans (hfrom ▸ hk'))
      rw [hinstrs] at hle
      exact ⟨0, Nat.zero_le _, hs.starts hl hfrom hle⟩
    · obtain ⟨m, hm, hvar⟩ := h.raise hfrom
      obtain ⟨k', _, _, _, _, hk', hinstrs, -⟩ := hl.raise
      obtain rfl := Option.some.inj (hk.symm.trans (hfrom ▸ hk'))
      rw [hinstrs] at hle
      have hle : 5 ≤ f.next := hle
      rw [if_neg (by omega)] at hvar
      exact ⟨m + 1, hm, hvar⟩
  · -- The head has found that the number is below the count.
    have hfrom := hl.toRound _ hedge
    obtain ⟨m, hm, hvar⟩ := h.head hfrom
    obtain ⟨k', i, c, hk', hinstrs, hbranch⟩ := hl.head
    obtain rfl := Option.some.inj (hk.symm.trans (hfrom ▸ hk'))
    rw [hinstrs] at hle
    have hc := hs.tests hl hk hinstrs hle hm hvar
    obtain rfl := Option.some.inj (hbranch.symm.trans ht)
    cases hpicks with
    | @branch _ _ _ r hr =>
        have hr := Word.bool.inj (Except.ok.inj (hc.symm.trans (getBool_eq_ok hr)))
        cases r with
        | true => exact ⟨m, by exact_mod_cast of_decide_eq_true hr, hvar⟩
        | false =>
            have hblock : p.after.index = n + 2 := hblock
            have := hl.beside
            omega
  · have hfrom := hl.toRaise _ hedge
    obtain ⟨m, hm, hvar⟩ := h.round hfrom
    exact ⟨m, hm, hvar⟩

/-- The frame stands in the body and knows what it has run of its block, and the variables of its loops
hold the numbers of the rounds. -/
structure Steady (b : Body) (f : Frame) : Prop where
  settled : f.Settled b
  counts : ∀ n p count, Laid b n p count → f.Counts n p count

theorem steady_enter (hb : b.Single) {words : List Word} (base : Nat)
    (hlength : b.args.length ≤ words.length) (hwords : ∀ w ∈ words, ∃ r, w = .ptr ⟨r, 0⟩) :
    (enter b words base).Steady b :=
  ⟨settled_enter hb base hlength hwords, fun _ _ _ _ => ⟨nofun, nofun, nofun⟩⟩

theorem Steady.runs (h : f.Steady b) (hb : b.Single) (ho : b.checkOrder = .ok ())
    (hruns : Runs f i f') (hk : b.blocks[f.block.index]? = some k)
    (hi : k.instrs[f.next]? = some i) (hnext : f'.next = f.next + 1) : f'.Steady b :=
  ⟨h.settled.runs hb ho hruns hk hi (Nat.le_refl _) (Nat.le_succ _) hnext,
    fun n p count hl => (h.counts n p count hl).runs h.settled hl hruns hk hi hnext⟩

theorem Steady.perform {ω : Surroundings} {memory memory' : Memory} (h : f.Steady b) (hb : b.Single)
    (ho : b.checkOrder = .ok ()) (hk : b.blocks[f.block.index]? = some k)
    (hi : k.instrs[f.next]? = some i)
    (hperf : Machine.perform ω (Machine.advance f) memory i = .ok (f', memory')) : f'.Steady b := by
  have hruns : Runs (Machine.advance f) i f' := by
    refine runs_of_perform hperf (fun v hv => ?_) fun v hv =>
      hb.not_mem_uses ho hk hi hi (Nat.le_refl _) hv
    exact (hb.lt ⟨k, i, hk, hi, hv⟩).trans_eq h.settled.size.symm
  exact h.runs hb ho ⟨hruns.body, hruns.block, hruns.size, hruns.varSize, hruns.get, hruns.vars,
    hruns.knows, hruns.ties⟩ hk hi (Machine.place_of_perform hperf).2.2

/-- A call has answered that the frame has been waiting for. -/
theorem Steady.answer {v : ValueId} {function : FunctionId} {args : List ValueId} (h : f.Steady b)
    (hb : b.Single) (ho : b.checkOrder = .ok ()) (hk : b.blocks[f.block.index]? = some k)
    (hi : k.instrs[q]? = some (.call (some v) function args)) (hnext : f.next = q + 1) (w : Word) :
    (f.set v w).Steady b := by
  refine ⟨h.settled.runs hb ho (runs_answer f) hk hi ?_ hnext.le hnext, fun n p count hl => ?_⟩
  · omega
  · obtain ⟨hhead, hround, hraise⟩ := h.counts n p count hl
    exact ⟨hhead, hround, hraise⟩

theorem Steady.goto (h : f.Steady b) (hk : b.blocks[f.block.index]? = some k)
    (hend : k.instrs[f.next]? = none) (ht : k.terminator = some t)
    (hpicks : Machine.Picks f t target) : (Machine.goto f target).Steady b :=
  ⟨h.settled.goto target, fun n p count hl =>
    (h.counts n p count hl).goto h.settled hl hk hend ht hpicks⟩

end Frame

namespace Machine

variable {program : Program} {m m' : Machine} {b : Body}

/-- The frame that has been called from outside is steady. If it waits, then it does so behind the call
whose result it takes. -/
inductive Rooted (b : Body) : Machine → Prop
  | here {f : Frame} {memory : Memory} (h : f.Steady b) : Rooted b ⟨f, [], memory⟩
  | inside {f : Frame} {callers : List Caller} {caller : Caller} {memory : Memory}
      (h : caller.frame.Steady b) (hwaits : ∀ v, caller.result = some v → ∃ k q function args,
        b.blocks[caller.frame.block.index]? = some k ∧ caller.frame.next = q + 1 ∧
          k.instrs[q]? = some (.call (some v) function args)) :
      Rooted b ⟨f, callers ++ [caller], memory⟩

/-- Calls from the outermost frame leave it as it is until they answer. -/
theorem Rooted.goes {ω : Surroundings} (h : m.Rooted b) (hb : b.Single) (ho : b.checkOrder = .ok ())
    (hgoes : m.Goes ω m') : m'.Rooted b := by
  cases h with
  | @here f memory h =>
      have hbody : f.body = b := h.settled.body
      cases hgoes with
      | perform hk hi hperf => exact .here (h.perform hb ho (hbody ▸ hk) hi hperf)
      | @call k result function args callee words hk hi =>
          have hk : b.blocks[f.block.index]? = some k := hbody ▸ hk
          refine @Rooted.inside b _ [] _ _ (h.runs hb ho (Frame.runs_call f) hk hi rfl) fun v hv => ?_
          obtain rfl : result = some v := hv
          exact ⟨k, f.next, function, args, hk, rfl, hi⟩
      | goto hk hend ht hpicks => exact .here (h.goto (hbody ▸ hk) hend ht hpicks)
      | leave hcallers hf => cases hcallers
  | @inside f callers caller memory h hwaits =>
      cases hgoes with
      | perform hk hi hperf => exact .inside h hwaits
      | call hk hi => exact @Rooted.inside b _ (_ :: callers) _ _ h hwaits
      | goto hk hend ht hpicks => exact .inside h hwaits
      | leave hcallers hf =>
          cases callers with
          | cons c callers =>
              obtain ⟨rfl, rfl⟩ := List.cons.inj hcallers
              exact .inside h hwaits
          | nil =>
              obtain ⟨rfl, rfl⟩ := List.cons.inj hcallers
              rcases hf with rfl | ⟨v, w, hv, rfl⟩
              · exact .here h
              · obtain ⟨k, q, function, args, hk, hq, hi⟩ := hwaits v hv
                exact .here (h.answer hb ho hk hi hq w)

theorem Rooted.reaches (h : m.Rooted b) (hb : b.Single) (ho : b.checkOrder = .ok ())
    (hreaches : Reaches program m m') : m'.Rooted b := by
  induction hreaches with
  | refl => exact h
  | tail _ hstep ih => exact ih.goes hb ho (goes_of_step hstep)

end Machine

end Dataflow.Code
