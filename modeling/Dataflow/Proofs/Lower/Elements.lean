import Dataflow.Proofs.Code.Elements
import Dataflow.Proofs.Lower.Fleet
import Dataflow.Proofs.Lower.Iteration

/-!
# Indexes of compiled code

The compiler checks on its own that the count of a loop and the offset of a span are below `2 ^ 31`, but
the code adds the number of a round to the offset in 32 bits. So an index is exact as long as the sum is
below `2 ^ 31`, too. This is so when no port and no output has as many elements, and then every
element that is addressed lies in its buffer.
-/

namespace Dataflow

open Code (Body Executable Machine Memory Surroundings)

/-- A call that comes to its end has run without a trap. -/
theorem Code.Executable.run_of_callBody {x x' : Executable} {b : Body} {ω : Surroundings}
    {args : List Code.Argument} {w : Option Code.Word} {values : List Values} {fuel : Nat}
    (h : x.callBody b fuel args ω = (.returned w values, x')) : ∃ memory, ∀ n ≥ fuel,
      Machine.run (x.program ω) n (x.called b args ω) = .finished w memory := by
  unfold callBody at h
  cases hrun : Machine.run (x.program ω) fuel (x.called b args ω) with
  | running m =>
      rw [hrun] at h
      cases h
  | trapped t =>
      rw [hrun] at h
      cases h
  | finished result memory =>
      rw [hrun] at h
      obtain ⟨hresult, -⟩ := Prod.mk.inj h
      obtain ⟨rfl, -⟩ := Code.CallResult.returned.inj hresult
      exact ⟨memory, fun n hn => Machine.run_of_le (by simp) hrun hn⟩

def Code.Machine.nextIndex? (m : Machine) : Option Int32 :=
  match (m.frame.body.blocks[m.frame.block.index]?).bind (·.instrs[m.frame.next]?) with
  | some (.offset _ _ index _) =>
    match m.callers, m.frame.get index with
    | [], .ok (.i32 i) => some i
    | _, _ => none
  | _ => none

theorem Code.Machine.of_nextIndex? {i : Int32} (h : m.nextIndex? = some i) :
    m.AtElement ∧ ∀ y : Machine.Element, y.At m → y.index = i := by
  unfold nextIndex? at h
  split at h
  case h_2 => cases h
  case h_1 result base index scale hnext =>
    split at h
    case h_2 => cases h
    case h_1 j hcallers hget =>
      obtain rfl := Option.some.inj h
      obtain ⟨k, hk, hinstr⟩ := Option.bind_eq_some_iff.1 hnext
      refine ⟨⟨hcallers, result, base, index, scale, k, hk, hinstr⟩, fun y hy => ?_⟩
      cases hy with
      | intro _ _ _ _ hk' hoffset _ _ _ hindex _ =>
          obtain rfl := Option.some.inj (hk.symm.trans hk')
          obtain ⟨-, -, rfl, -⟩ := Code.Instr.offset.inj (Option.some.inj (hinstr.symm.trans hoffset))
          exact (Code.Word.i32.inj (Except.ok.inj (hget.symm.trans hindex))).symm

namespace Compiled

variable {log : List Key} {graph : Graph} {kind : Key → Builtin} {inputs : List (String × Key)}
  {outputs : List (String × Selection)} {t₀ t : Transform} {plan : Lower.Plan} {c : Compiled}
  {remarks : List Remark} {x w : Values} {ω : Surroundings} {m : Machine} {y : Machine.Element}
  {T : Nat → (Code.Access → Nat → Prop) → Prop}

structure Receives (c : Compiled) (x w : Values) : Prop where
  inputType : x.elemType = c.inputType
  inputSize : x.length = c.inputSize
  outputType : w.elemType = c.outputType
  outputSize : w.length = c.outputSize

/-- The function of the code is called with the addresses of two buffers. -/
theorem rooted_called (hb : c.entry.Single) (hargs : c.entry.args = [⟨0⟩, ⟨1⟩]) :
    (c.code.called c.entry [.buffer x, .buffer w] ω).Rooted c.entry := by
  rw [Code.called_buffers]
  refine .here (Code.Frame.steady_enter hb _ (by rw [hargs]; rfl) fun word hword => ?_)
  rcases List.mem_pair.1 hword with rfl | rfl
  · exact ⟨_, rfl⟩
  · exact ⟨_, rfl⟩

/-- Where the code computes the address of an element, the index is the sum, in 32 bits, of the number of
a round and an offset. -/
theorem exists_element (hb : c.entry.Single) (ho : c.entry.checkOrder = .ok ())
    (hargs : c.entry.args = [⟨0⟩, ⟨1⟩]) (hl : c.entry.Looped T)
    (hreaches : Machine.Reaches (c.code.program ω)
      (c.code.called c.entry [.buffer x, .buffer w] ω) m) (hm : m.AtElement) :
    ∃ y : Machine.Element, y.At m ∧ y.Among T ∧ y.Sums ∧ ∀ fuel r values c',
      c.code.callBody c.entry fuel [.buffer x, .buffer w] ω = (.returned r values, c') →
        y.Exact ∧ y.Inside m.memory := by
  have hrooted := (rooted_called hb hargs).reaches hb ho hreaches
  obtain ⟨y, hy, hamong, hsums⟩ := hrooted.exists_element hl hm
  refine ⟨y, hy, hamong, hsums, fun fuel r values c' hcall => ?_⟩
  obtain ⟨memory, hrun⟩ := Executable.run_of_callBody hcall
  have hinside := hy.inside (hrooted.steady hm.1).settled hb hrun hreaches
  exact ⟨hsums.exact_of_nonneg hinside.nonneg, hinside⟩

/-- In compiled code an index is the number of a round and an offset together whenever that is below
`2 ^ 31`, however large ports and outputs are: the count of a loop and the offset of a span are checked,
their sum is not. When no port and no output has `2 ^ 31` elements, every index is exact and
its element lies in the buffer. -/
theorem exact_of_reaches (hgraph : Graph.History log graph) (hkind : graph.BuiltFrom kind)
    (htyped : ∀ k, (kind k).Typed) (hnew : Transform.new graph inputs outputs = .ok t₀)
    (before : List Transform.Call) (ht : before.foldl Transform.after t₀ = t)
    (hcompile : compile t plan = (.ok c, remarks)) :
    ∃ s order, t.output 0 = .ok s ∧ t.graph.dependencyOrder [s] = .ok order ∧
      (∀ b ∈ c.code.bodies, b = c.entry ∨ ∃ op t, b.IsHelper op t) ∧
      ∀ (x w : Values) (ω : Surroundings) (m : Machine),
        Machine.Reaches (c.code.program ω)
            (c.code.called c.entry [.buffer x, .buffer w] ω) m → m.AtElement →
          ∃ y : Machine.Element, y.At m ∧ y.Among (Lower.Iterates t.graph order s) ∧
            (y.Exact ↔ y.round + y.offset < 2 ^ 31) ∧
            (graph.Small → s.size < 2 ^ 31 → c.Receives x w → y.Exact ∧ y.Inside m.memory) := by
  have hfollows : Transform.Follows log kind t₀ t := by
    obtain ⟨rfl, -⟩ := Transform.new_eq_ok hnew
    exact ht ▸ Transform.Follows.foldl ⟨rfl, rfl, .refl hgraph hkind⟩ before
  obtain ⟨s, order, hs, horder, hhelpers, hargs, hb, ho, hlooped⟩ :=
    looped_of_compile hfollows.graph.built.node hcompile
  refine ⟨s, order, hs, horder, hhelpers, fun x w ω m hreaches hm => ?_⟩
  obtain ⟨y, hy, hamong, hsums, hcalled⟩ := exists_element hb ho hargs hlooped hreaches hm
  refine ⟨y, hy, hamong, hsums.exact_iff, fun hports hsize hreceives => ?_⟩
  have houtput : ∀ s', t₀.output 0 = .ok s' → s'.size < 2 ^ 31 := fun s' hs' => by
    obtain rfl := Except.ok.inj (hs.symm.trans ((hfollows.output_eq 0).trans hs'))
    exact hsize
  obtain ⟨f, hf⟩ := exists_realizes hgraph hkind htyped hnew hports houtput hfollows hcompile
  obtain ⟨-, -, hcalls⟩ := hf x hreceives.inputType hreceives.inputSize
  obtain ⟨n, hn⟩ := hcalls w hreceives.outputType hreceives.outputSize ω
  exact hcalled n _ _ _ (hn n (Nat.le_refl n))

section Doubling

def doublingAfter (n : Nat) (c : Compiled) : Option Machine :=
  match Machine.run c.code.program n
    (c.code.called c.entry [.buffer (.integers [2, 3, 4]), .buffer (.integers [0, 0])]) with
  | .running m => some m
  | _ => none

theorem reaches_of_doublingAfter {n : Nat} (h : doublingAfter n c = some m) :
    Machine.Reaches c.code.program
      (c.code.called c.entry [.buffer (.integers [2, 3, 4]), .buffer (.integers [0, 0])]) m := by
  unfold doublingAfter at h
  split at h
  · next m' hrun =>
      obtain rfl := Option.some.inj h
      exact Machine.reaches_of_run hrun
  · cases h

/-- The last number is about to be read after some steps. -/
theorem exists_nextIndex_doubler : ∃ c remarks m, compile doubler = (.ok c, remarks) ∧
    Machine.Reaches c.code.program
      (c.code.called c.entry [.buffer (.integers [2, 3, 4]), .buffer (.integers [0, 0])]) m ∧
    m.nextIndex? = some 2 ∧ c.Receives (.integers [2, 3, 4]) (.integers [0, 0]) := by
  have hshape : (compile doubler).1.toOption.map (fun c => (c.inputType, c.inputSize, c.outputType,
      c.outputSize, (doublingAfter 36 c).bind (·.nextIndex?))) =
        some (.integer, 3, .integer, 2, some 2) := by
    simp only [compile, run_build_doubler]
    decide +kernel
  obtain ⟨c, hc, hshape⟩ := Option.map_eq_some_iff.1 hshape
  simp only [Prod.mk.injEq] at hshape
  obtain ⟨hin, hinSize, hout, houtSize, hnext⟩ := hshape
  obtain ⟨m, hm, hnext⟩ := Option.bind_eq_some_iff.1 hnext
  exact ⟨c, _, m, Prod.ext (toOption_eq_some_iff.1 hc) rfl, reaches_of_doublingAfter hm, hnext,
    hin.symm, hinSize.symm, hout.symm, houtSize.symm⟩

/-- The index of that number, of the second round over a range that starts at one, is exact. -/
theorem exact_doubler : ∃ (c : Compiled) (m : Machine) (y : Machine.Element),
    (compile doubler).1 = .ok c ∧
    Machine.Reaches c.code.program
      (c.code.called c.entry [.buffer (.integers [2, 3, 4]), .buffer (.integers [0, 0])]) m ∧
    y.At m ∧ y.index = 2 ∧ y.Exact ∧ y.Inside m.memory := by
  obtain ⟨c, remarks, m, hcompile, hreaches, hnext, hreceives⟩ := exists_nextIndex_doubler
  obtain ⟨hm, hindex⟩ := Machine.of_nextIndex? hnext
  obtain ⟨s, order, hs, -, -, hall⟩ := exact_of_reaches (Graph.history_replay _)
    (fun k e he => (entry_doubling he).1) Fleet.typed_doublingKind new_doubling [] rfl hcompile
  obtain ⟨y, hy, -, -, hexact⟩ := hall _ _ _ m hreaches hm
  have ⟨h, hinside⟩ := hexact small_doubling (size_doubler hs) hreceives
  exact ⟨c, m, y, by rw [hcompile], hreaches, hy, hindex y hy, h, hinside⟩

end Doubling

section Overflow

open Code (Block Frame Instr Ty Word)

/-- An input of more elements than an index of 32 bits can tell apart. -/
def wideKind (_ : Key) : Builtin := .input .boolean (some 2147483649)

def wide : Graph := (Graph.replay [.addNumbered 0 (wideKind ⟨0, 1⟩).toNode]).2

/-- The last two elements of the input. The first of them has the index `2 ^ 31 - 1`. -/
def wideCopy : Transform :=
  ⟨wide, "input", ⟨0, 1⟩,
    [("output", .ofSpan ⟨⟨⟨0, 1⟩, 0⟩, .boolean, 2147483647, 2, 2147483649, true⟩)]⟩

theorem builtFrom_wide : wide.BuiltFrom wideKind := by
  intro k e he
  have horder : wide.order = [⟨0, 1⟩] := by decide +kernel
  have hk : k ∈ wide.order :=
    ((Graph.history_replay _).sound.mem_order_iff k).2 (Graph.live_of_entry he)
  rw [horder] at hk
  obtain rfl := List.mem_singleton.1 hk
  obtain rfl := Option.some.inj he
  rfl

def wideBlocks : Array Block := #[
  ⟨"entry", #[], some (.jump ⟨1⟩)⟩,
  ⟨"for.init", #[.const ⟨2⟩ (.i32 0), .writeVar ⟨0⟩ ⟨2⟩, .const ⟨3⟩ (.i32 1), .const ⟨4⟩ (.i32 1),
    .const ⟨5⟩ (.i32 2)], some (.jump ⟨2⟩)⟩,
  ⟨"for.cond", #[.readVar ⟨6⟩ ⟨0⟩, .compare ⟨7⟩ .less ⟨6⟩ ⟨5⟩], some (.branch ⟨7⟩ ⟨3⟩ ⟨5⟩)⟩,
  ⟨"for.body", #[.readVar ⟨8⟩ ⟨0⟩, .const ⟨9⟩ (.i32 2147483647), .binary ⟨10⟩ .add ⟨8⟩ ⟨9⟩,
    .offset ⟨11⟩ ⟨0⟩ ⟨10⟩ 1, .load ⟨12⟩ ⟨11⟩ 0, .offset ⟨13⟩ ⟨1⟩ ⟨8⟩ 1, .store ⟨13⟩ 0 ⟨12⟩],
    some (.jump ⟨4⟩)⟩,
  ⟨"for.inc", #[.readVar ⟨14⟩ ⟨0⟩, .binary ⟨15⟩ .add ⟨14⟩ ⟨3⟩, .compare ⟨16⟩ .less ⟨14⟩ ⟨4⟩,
    .select ⟨17⟩ ⟨16⟩ ⟨15⟩ ⟨5⟩, .writeVar ⟨0⟩ ⟨17⟩], some (.jump ⟨2⟩)⟩,
  ⟨"for.after", #[], some (.ret none)⟩]

def wideTypes : Array Ty := #[.ptr, .ptr, .i32, .i32, .i32, .i32, .i32, .bool, .i32, .i32, .i32, .ptr,
  .bool, .ptr, .i32, .i32, .bool, .i32]

def wideBody (b : Body) : Body :=
  { b with blocks := wideBlocks, valueTypes := wideTypes, varTypes := #[.i32], args := [⟨0⟩, ⟨1⟩] }

/-- The compiler accepts the copy. -/
theorem exists_compile_wideCopy : ∃ c remarks, compile wideCopy = (.ok c, remarks) ∧
    c.inputType = .boolean ∧ c.inputSize = 2147483649 ∧ c.outputType = .boolean ∧ c.outputSize = 2 ∧
      c.code.data = #[] ∧ c.entry.stack = #[] ∧ c.entry = wideBody c.entry := by
  have hshape : (compile wideCopy).1.toOption.map (fun c => (c.inputType, c.inputSize, c.outputType,
      c.outputSize, c.code.data, c.entry.stack, c.entry.blocks, c.entry.valueTypes, c.entry.varTypes,
      c.entry.args)) = some (.boolean, 2147483649, .boolean, 2, #[], #[], wideBlocks,
      wideTypes, #[.i32], [⟨0⟩, ⟨1⟩]) := by
    cbv
  obtain ⟨c, hc, hshape⟩ := Option.map_eq_some_iff.1 hshape
  simp only [Prod.mk.injEq] at hshape
  obtain ⟨hin, hinSize, hout, houtSize, hdata, hstack, hblocks, htypes, hvars, hargs⟩ := hshape
  refine ⟨c, _, Prod.ext (toOption_eq_some_iff.1 hc) rfl, hin, hinSize, hout, houtSize, hdata,
    hstack, ?_⟩
  rw [wideBody, ← hblocks, ← htypes, ← hvars, ← hargs]

def wideFrame (b : Body) (next : Nat) (value address : Option Word) : Frame :=
  ⟨wideBody b, ⟨3⟩, next, #[some (.ptr ⟨1, 0⟩), some (.ptr ⟨2, 0⟩), some (.i32 0), some (.i32 1),
    some (.i32 1), some (.i32 2), some (.i32 0), some (.bool true), some (.i32 0),
    some (.i32 2147483647), some (.i32 2147483647), some (.ptr ⟨1, 2147483647⟩), value, address, none,
    none, none, none], #[.i32 0], 2⟩

/-- The first element is copied, and then the loop computes a negative index for the second one. -/
theorem reaches_wideBody {P : Code.Program} {M M' : Memory} {a : Bool} (b : Body)
    (hload : M.load (P.surroundings.layout M.size) .bool ⟨1, 2147483647⟩ 0 = .ok (.bool a))
    (hstore : M.store (P.surroundings.layout M.size) ⟨2, 0⟩ 0 (.bool a) = .ok M') :
    ∃ f, Machine.Reaches P ⟨Frame.enter (wideBody b) [.ptr ⟨1, 0⟩, .ptr ⟨2, 0⟩] 2, [], M⟩
        ⟨f, [], M'⟩ ∧
      f.body = wideBody b ∧ f.block = ⟨3⟩ ∧ f.next = 3 ∧ f.get ⟨10⟩ = .ok (.i32 (-2147483648)) := by
  have h₁ : Machine.run P 14 ⟨Frame.enter (wideBody b) [.ptr ⟨1, 0⟩, .ptr ⟨2, 0⟩] 2, [], M⟩ =
      .running ⟨wideFrame b 4 none none, [], M⟩ := by
    cbv
  have h₂ : Machine.stepOrTrap P ⟨wideFrame b 4 none none, [], M⟩ =
      .ok (.running ⟨wideFrame b 5 (some (.bool a)) none, [], M⟩) :=
    Machine.stepOrTrap_instr rfl rfl rfl (Machine.perform_load rfl rfl hload)
  have h₃ : Machine.run P 1 ⟨wideFrame b 5 (some (.bool a)) none, [], M⟩ =
      .running ⟨wideFrame b 6 (some (.bool a)) (some (.ptr ⟨2, 0⟩)), [], M⟩ := by
    cbv
  have h₄ : Machine.stepOrTrap P ⟨wideFrame b 6 (some (.bool a)) (some (.ptr ⟨2, 0⟩)), [], M⟩ =
      .ok (.running ⟨wideFrame b 7 (some (.bool a)) (some (.ptr ⟨2, 0⟩)), [], M'⟩) :=
    Machine.stepOrTrap_instr rfl rfl rfl (Machine.perform_store rfl rfl hstore)
  have h₅ : Machine.run P 13 ⟨wideFrame b 7 (some (.bool a)) (some (.ptr ⟨2, 0⟩)), [], M'⟩ =
      .running ⟨⟨wideBody b, ⟨3⟩, 3, #[some (.ptr ⟨1, 0⟩), some (.ptr ⟨2, 0⟩), some (.i32 0),
        some (.i32 1), some (.i32 1), some (.i32 2), some (.i32 1), some (.bool true), some (.i32 1),
        some (.i32 2147483647), some (.i32 (-2147483648)), some (.ptr ⟨1, 2147483647⟩),
        some (.bool a), some (.ptr ⟨2, 0⟩), some (.i32 0), some (.i32 1), some (.bool true),
        some (.i32 1)], #[.i32 1], 2⟩, [], M'⟩ := by
    cbv
  exact ⟨_, (Machine.reaches_of_run h₁).trans ((Machine.reaches_of_step h₂).trans
    ((Machine.reaches_of_run h₃).trans ((Machine.reaches_of_step h₄).trans
      (Machine.reaches_of_run h₅)))), rfl, rfl, rfl, rfl⟩

/-- The first element lies in the input and has room in the output. -/
theorem exists_copied {M : Memory} {x w : Values} (hx : x.bytes.length = 2147483649)
    (hw : w.bytes.length = 2) (hinput : M[0]? = some { bytes := x.bytes.toArray })
    (houtput : M[1]? = some { bytes := w.bytes.toArray }) (l : Code.Layout) :
    ∃ a, M.load l .bool ⟨1, 2147483647⟩ 0 = .ok (.bool a) ∧
      M.store l ⟨2, 0⟩ 0 (.bool a) = .ok (M.put l 1 0 (.bool a)) := by
  have hload : 2147483647 + Ty.bool.size ≤ x.bytes.toArray.size := by
    rw [List.size_toArray, hx]
    decide
  refine ⟨_, Memory.load_eq_ok_iff.2 ⟨_, 2147483647, hinput, rfl, hload, rfl⟩,
    Memory.store_eq houtput rfl rfl ?_⟩
  rw [List.size_toArray, hw]
  exact Nat.le_succ 1

/-- In the second round the loop is at an element whose index is negative. -/
theorem offsetAt_wideBody {f : Frame} {b : Body} (hbody : f.body = wideBody b) (hblock : f.block = ⟨3⟩)
    (hnext : f.next = 3) : f.body.OffsetAt f.block.index f.next ⟨11⟩ ⟨0⟩ ⟨10⟩ 1 := by
  rw [hbody, hblock, hnext]
  exact ⟨_, rfl, rfl⟩

theorem index_neg {f : Frame} {M : Memory} {y : Machine.Element} {result base index : Code.ValueId}
    {scale : Nat} (ho : f.body.OffsetAt f.block.index f.next result base index scale)
    (hget : f.get index = .ok (.i32 (-2147483648))) (hy : y.At ⟨f, [], M⟩) : y.index.toInt < 0 := by
  obtain ⟨k, hk, hi⟩ := ho
  cases hy with
  | intro _ _ _ _ hk' hi' _ _ _ hindex _ =>
      obtain rfl := Option.some.inj (hk.symm.trans hk')
      obtain ⟨-, -, rfl, -⟩ := Instr.offset.inj (Option.some.inj (hi.symm.trans hi'))
      rw [← Word.i32.inj (Except.ok.inj (hget.symm.trans hindex))]
      decide

/-- The index of the second element has wrapped around, and what is at its address is not in the
buffer. -/
theorem not_exact_wideCopy : wide.BuiltFrom wideKind ∧
    Transform.new wide [("input", ⟨0, 1⟩)] wideCopy.outputs = .ok wideCopy ∧
    ∃ (c : Compiled) (remarks : List Remark), compile wideCopy = (.ok c, remarks) ∧
      c.Receives (.zeros .boolean 2147483649) (.zeros .boolean 2) ∧
      ∀ ω, ∃ (m : Machine) (y : Machine.Element),
        Machine.Reaches (c.code.program ω) (c.code.called c.entry
          [.buffer (.zeros .boolean 2147483649), .buffer (.zeros .boolean 2)] ω) m ∧
        m.AtElement ∧ y.At m ∧ ¬ y.Exact ∧ ¬ y.Inside m.memory := by
  refine ⟨builtFrom_wide, rfl, ?_⟩
  obtain ⟨c, remarks, hcompile, hin, hinSize, hout, houtSize, hdata, hstack, hentry⟩ :=
    exists_compile_wideCopy
  obtain ⟨s, order, -, -, -, hargs, hb, ho, hlooped⟩ := looped_of_compile builtFrom_wide hcompile
  have hreceives : c.Receives (.zeros .boolean 2147483649) (.zeros .boolean 2) := by
    refine ⟨?_, ?_, ?_, ?_⟩
    · rw [Values.elemType_zeros, hin]
    · rw [Values.length_zeros, hinSize]
    · rw [Values.elemType_zeros, hout]
    · rw [Values.length_zeros, houtSize]
  refine ⟨c, remarks, hcompile, hreceives, fun ω => ?_⟩
  generalize Values.zeros .boolean 2147483649 = x at hreceives ⊢
  generalize Values.zeros .boolean 2 = w at hreceives ⊢
  have hlen : x.bytes.length = 2147483649 ∧ w.bytes.length = 2 := by
    rw [Values.length_bytes, Values.length_bytes, hreceives.inputType, hreceives.inputSize,
      hreceives.outputType, hreceives.outputSize, hin, hinSize, hout, houtSize]
    exact ⟨rfl, rfl⟩
  have hinput : (c.code.framed ω c.entry x w)[c.code.data.size]? =
      some { bytes := x.bytes.toArray } :=
    Code.getElem?_framed_input
  have houtput : (c.code.framed ω c.entry x w)[c.code.data.size + 1]? =
      some { bytes := w.bytes.toArray } :=
    Code.getElem?_framed_output
  rw [hdata] at hinput houtput
  generalize hstart : c.code.framed ω c.entry x w = M at hinput houtput
  obtain ⟨a, hload, hstore⟩ := exists_copied hlen.1 hlen.2 hinput houtput (ω.layout M.size)
  obtain ⟨f, hreaches, hbody, hblock, hnext, hget⟩ :=
    reaches_wideBody (P := c.code.program ω) c.entry hload hstore
  have hoffset := offsetAt_wideBody hbody hblock hnext
  have hcalled : c.code.called c.entry [.buffer x, .buffer w] ω =
      ⟨Frame.enter c.entry [.ptr ⟨1, 0⟩, .ptr ⟨2, 0⟩] 2, [], M⟩ := by
    rw [Code.called_buffers, hdata, hstart]
    rfl
  rw [← hentry, ← hcalled] at hreaches
  have helement : Machine.AtElement ⟨f, [], M.put (ω.layout M.size) 1 0 (.bool a)⟩ :=
    ⟨rfl, ⟨11⟩, ⟨0⟩, ⟨10⟩, 1, hoffset⟩
  obtain ⟨y, hy, -⟩ := exists_element hb ho hargs hlooped hreaches helement
  have hnegative := index_neg hoffset hget hy
  refine ⟨_, y, hreaches, helement, hy, fun hexact => ?_, fun hinside => ?_⟩
  · rw [Machine.Element.Exact] at hexact
    omega
  · exact absurd hinside.nonneg (by omega)

end Overflow

end Compiled

end Dataflow
