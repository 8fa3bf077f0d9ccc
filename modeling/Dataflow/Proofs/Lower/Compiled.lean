import Dataflow.Lower.Compiled
import Dataflow.Proofs.Code.Bounds
import Dataflow.Proofs.Code.Exports
import Dataflow.Proofs.Lower.Build

/-!
# Compiled transforms agree with interpreted ones

A call of compiled code gets two buffers of the caller, one with the input and one for the output.
They lie between the data of the module and the frame of the function. When the interpreter has
a result for the input, the call ends with that result in the second buffer and leaves the first
buffer and the module as they were.
-/

namespace Dataflow

open Code (Argument Assembler Body Context Declarations Emitter Executable Machine Memory Signature
  Store Surroundings Ty Word)

namespace Code

structure Module (x : Executable) (d : Declarations) (b : Body) : Prop where
  data : x.data = d.data.map Executable.dataRegion
  main : b ∈ x.bodies
  applies : ∀ op t id, d.helpers.find? (op, t) = some id →
    ∃ b', x.body? id = some b' ∧ b'.Applies op
  exported : ∀ name b', x.exported name = .ok b' → b' = b

variable {a a' : Assembler} {x : Executable} {body b : Body} {helpers : List Body}

/-- What comes of a module in which one function has been defined. -/
theorem Assembler.EndsWith.module (h : a.EndsWith body b helpers a') (hx : a'.finalize = .ok x)
    (hdefined : a.defined = []) (hd : a.declarations.Sound) (hid : b.id = ⟨0⟩) :
    Module x a.declarations b := by
  obtain ⟨-, hdeclarations, hbodies, hdata⟩ := Assembler.finalize_eq_ok hx
  have hall : x.bodies = b :: helpers := by rw [hbodies, h.defined, hdefined, List.nil_append]
  have hhelper : ∀ b' ∈ helpers, ∃ r ∈ a.declarations.pending, b'.id = r.function ∧
      b'.Applies r.op ∧ 0 < r.function.index ∧
        Executable.isExported a.declarations b' = false := by
    intro b' hb'
    obtain ⟨r, hr, hmade⟩ := Assembler.forall₂_mem_right h.made hb'
    obtain ⟨hpos, name, hname⟩ := hd.declared r hr
    obtain ⟨hrid, happlies⟩ := hmade.applies hname rfl
    exact ⟨r, hr, hrid, happlies, hpos, Assembler.isExported_eq _ (hrid ▸ hname)⟩
  refine ⟨?_, by rw [hall]; simp, fun op t id hop => ?_, fun name b' hb' => ?_⟩
  · rw [hdata, h.declarations]
  · have hr := hd.asked op t id hop
    obtain ⟨b₁, hb₁, hmade⟩ := Assembler.forall₂_mem_left h.made hr
    cases hfind : x.body? id with
    | none =>
        obtain ⟨-, name, hname⟩ := hd.declared _ hr
        have hnot := List.find?_eq_none.1 hfind b₁ (by rw [hall]; simp [hb₁])
        rw [(hmade.applies hname rfl).1] at hnot
        simp at hnot
    | some b' =>
        have hid' : b'.id = id := by simpa using List.find?_some hfind
        have hmem : b' ∈ b :: helpers := hall ▸ List.mem_of_find?_eq_some hfind
        rcases List.mem_cons.1 hmem with rfl | hmem
        · obtain ⟨hpos, -⟩ := hd.declared _ hr
          rw [← hid', hid] at hpos
          cases hpos
        · obtain ⟨r, hr', hrid, happlies, -⟩ := hhelper b' hmem
          have heq : r = ⟨id, op, t⟩ :=
            List.inj_on_of_nodup_map hd.distinct hr' hr (hrid.symm.trans hid')
          rw [heq] at happlies
          exact ⟨b', rfl, happlies⟩
  · unfold Executable.exported at hb'
    split at hb'
    case h_2 => cases hb'
    case h_1 b₁ hfind =>
      obtain rfl := Except.ok.inj hb'
      have hmem := List.mem_filter.1 (List.mem_of_find?_eq_some hfind)
      rw [hall] at hmem
      rcases List.mem_cons.1 hmem.1 with rfl | hb₁
      · rfl
      · obtain ⟨-, -, -, -, -, hhidden⟩ := hhelper b₁ hb₁
        have hexported := hmem.2
        rw [hdeclarations, h.declarations] at hexported
        cases hhidden.symm.trans hexported

section Calls

variable {d : Declarations} {v w : Values} {ω : Surroundings}

def Executable.withBuffers (x : Executable) (v w : Values) : Memory :=
  (x.data.push { bytes := v.bytes.toArray }).push { bytes := w.bytes.toArray }

theorem size_withBuffers : (x.withBuffers v w).size = x.data.size + 2 := by
  simp [Executable.withBuffers]

theorem place_buffers : Executable.place x.data [.buffer v, .buffer w] =
    ([.ptr ⟨x.data.size + 1, 0⟩, .ptr ⟨x.data.size + 2, 0⟩], x.withBuffers v w) := by
  simp [Executable.place, Executable.withBuffers]

def Executable.framed (x : Executable) (ω : Surroundings) (b : Body) (v w : Values) : Memory :=
  (x.withBuffers v w).enter ω b.stack

theorem called_buffers : x.called b [.buffer v, .buffer w] ω =
    ⟨Frame.enter b [.ptr ⟨x.data.size + 1, 0⟩, .ptr ⟨x.data.size + 2, 0⟩] (x.data.size + 2), [],
      x.framed ω b v w⟩ := by
  rw [Executable.called, place_buffers]
  simp only [Machine.call, size_withBuffers]
  rfl

theorem getElem?_framed {i : Nat} (hi : i < x.data.size) :
    (x.framed ω b v w)[i]? = x.data[i]? := by
  have hlt : i < (x.withBuffers v w).size := by
    rw [size_withBuffers]
    omega
  rw [Executable.framed, Memory.enter, Array.getElem?_append_left hlt, Executable.withBuffers,
    Array.getElem?_push_lt (by rw [Array.size_push]; omega), Array.getElem_push_lt hi,
    Array.getElem?_eq_getElem hi]

theorem getElem?_framed_input : (x.framed ω b v w)[x.data.size]? =
    some { bytes := v.bytes.toArray } := by
  have hlt : x.data.size < (x.withBuffers v w).size := by
    rw [size_withBuffers]
    omega
  rw [Executable.framed, Memory.enter, Array.getElem?_append_left hlt, Executable.withBuffers,
    Array.getElem?_push_lt (by rw [Array.size_push]; omega), Array.getElem_push_eq]

theorem getElem?_framed_output : (x.framed ω b v w)[x.data.size + 1]? =
    some { bytes := w.bytes.toArray } := by
  have hlt : x.data.size + 1 < (x.withBuffers v w).size := by
    rw [size_withBuffers]
    omega
  have hsize : (x.data.push { bytes := v.bytes.toArray }).size = x.data.size + 1 := Array.size_push _
  rw [Executable.framed, Memory.enter, Array.getElem?_append_left hlt, Executable.withBuffers, ← hsize,
    Array.getElem?_push_size]

def Module.context (h : Module x d b) (ω : Surroundings) (v w : Values) : Context where
  program := x.program ω
  body := b
  base := x.data.size + 2
  data := d.data
  helpers := d.helpers
  extents := (x.framed ω b v w).extents
  applies := h.applies
  places i n hn := by
    have hsize : (x.withBuffers v w).extents.size = x.data.size + 2 := by
      rw [Memory.extents, Array.size_map, size_withBuffers]
    rw [Executable.framed, Memory.extents_enter, Array.getElem?_append_right (by omega), hsize,
      Nat.add_sub_cancel_left, Array.getElem?_map, hn]
    rfl

def Module.entry (b : Body) (x : Executable) (ω : Surroundings) (v w : Values) : Store where
  values := Frame.bind (Array.replicate b.valueTypes.size none) b.args
    [.ptr ⟨x.data.size + 1, 0⟩, .ptr ⟨x.data.size + 2, 0⟩]
  vars := b.varTypes.map Word.zero
  memory := x.framed ω b v w

theorem Module.fits_entry (h : Module x d b) : (h.context ω v w).Fits (entry b x ω v w) where
  values := by
    rw [entry, Machine.size_bind, Array.size_replicate]
    rfl
  vars := Array.size_map
  extents := rfl
  data i datum hi := by
    have hi' : d.data[i]? = some datum := hi
    have hlt : i < x.data.size := by
      rw [h.data, Array.size_map]
      exact (Array.getElem?_eq_some_iff.1 hi').1
    change (x.framed ω b v w)[i]? = _
    rw [getElem?_framed hlt, h.data, Array.getElem?_map, hi', Option.map_some]

theorem Module.here_entry (h : Module x d b) {b₀ : Body} (hcurrent : b₀.current = ⟨0⟩)
    (hposition : b₀.position = 0) :
    (h.context ω v w).here b₀ (entry b x ω v w) = x.called b [.buffer v, .buffer w] ω := by
  rw [called_buffers, Context.here, hcurrent, hposition, Frame.enter]
  rfl

/-- What the caller finds after a call that has finished. -/
theorem Module.callBody_eq (h : Module x d b) {fuel : Nat} {σ : Store} {w' : Values}
    (hσ : (h.context ω v w).Fits σ) (hinput : σ.memory.Bears x.data.size v)
    (houtput : σ.memory.Bears (x.data.size + 1) w') (htype : w.elemType = w'.elemType)
    (hlen : w.length = w'.length)
    (hrun : Machine.run (x.program ω) fuel (x.called b [.buffer v, .buffer w] ω) =
      .finished none (σ.memory.leave (x.data.size + 2))) :
    x.callBody b fuel [.buffer v, .buffer w] ω = (.returned none [v, w'], x) := by
  have hsize : x.data.size + 2 ≤ σ.memory.size := by
    have hsame : σ.memory.extents.size = (x.framed ω b v w).extents.size := congrArg _ hσ.extents
    rw [Executable.framed, Memory.extents_enter, Array.size_append, Memory.extents, Memory.extents,
      Array.size_map, Array.size_map, size_withBuffers] at hsame
    omega
  have hback : ∀ r u, r < x.data.size + 2 → σ.memory.Bears r u →
      Values.ofBytes u.elemType u.length
        ((((σ.memory.leave (x.data.size + 2))[r]?).map (·.bytes.toList)).getD []) = u := by
    intro r u hr hu
    obtain ⟨region, hregion⟩ : ∃ region, σ.memory[r]? = some region :=
      ⟨_, Array.getElem?_eq_getElem (by omega)⟩
    rw [Memory.getElem?_leave hr, hregion]
    exact hu.ofBytes hregion
  have hdata : (σ.memory.leave (x.data.size + 2)).take x.data.size = x.data := by
    apply Array.ext_getElem?
    intro i
    have hlen : x.data.size = d.data.size := by rw [h.data, Array.size_map]
    rw [Array.take_eq_extract, Array.getElem?_extract, Nat.zero_add]
    split
    case isTrue hi =>
      have hi' : i < d.data.size := by omega
      have hkept := hσ.data i _ (Array.getElem?_eq_getElem hi')
      rw [Memory.getElem?_leave (by omega), hkept, h.data, Array.getElem?_map,
        Array.getElem?_eq_getElem hi', Option.map_some]
    case isFalse hi =>
      rw [Memory.size_leave] at hi
      rw [Array.getElem?_eq_none (by omega)]
  unfold Executable.callBody
  rw [hrun]
  dsimp only [Executable.collect]
  rw [hback _ v (by omega) hinput, htype, hlen, hback _ w' (by omega) houtput, hdata]

end Calls

end Code

namespace Lower

open Code (Module)

section Returns

variable {x : Executable} {d : Declarations} {b : Body} {t : Transform} {g : Graph} {plan : Plan}
  {e e' : Emitter} {input v w : Values} {ω : Surroundings}

theorem size_data (h : Module x d b) : d.data.size = x.data.size := by
  rw [h.data, Array.size_map]

theorem receives_context (h : Module x d b) (htype : w.elemType = v.elemType)
    (hlen : w.length = v.length) :
    Receives (h.context ω input w) v where
  base := by
    change x.data.size + 2 = d.data.size + 2
    rw [size_data h]
  room := by
    refine ⟨Nat.le_succ _, w.bytes.length, ?_, ?_⟩
    · change (x.framed ω b input w).extents[d.data.size + 1]? = _
      rw [size_data h, Memory.extents, Array.getElem?_map, Code.getElem?_framed_output]
      simp [Code.Region.extent]
    · rw [Values.length_bytes, htype, hlen]

/-- A call begins with the addresses of its buffers and with the input behind the first one. -/
theorem stands_entry (h : Module x d b) (ho : Opening plan e) (hbody : e.body.Within b)
    (hinput : ∀ o, g.outlet ⟨t.input, 0⟩ = .ok o → o.values = input) :
    Stands (h.context ω input w) g ⟨1⟩ (start t e) (Module.entry b x ω input w) := by
  have hargs : b.args = [⟨0⟩, ⟨1⟩] := hbody.args.trans ho.args
  have hsize : 2 ≤ b.valueTypes.size := by
    have hle := hbody.valueTypes.size_le
    rwa [ho.types] at hle
  have hvalues : (Module.entry b x ω input w).values =
      ((Array.replicate b.valueTypes.size none).setIfInBounds 0
        (some (.ptr ⟨x.data.size + 1, 0⟩))).setIfInBounds 1 (some (.ptr ⟨x.data.size + 2, 0⟩)) := by
    rw [Module.entry, hargs]
    rfl
  refine ⟨h.fits_entry, fun q st hst => ?_, ?_, ?_⟩
  · rw [find?_start] at hst
    split at hst
    case isFalse => cases hst
    case isTrue hq =>
      obtain rfl := Option.some.inj hst
      refine ⟨⟨fun y hy => ?_, nofun⟩, fun o hgo => ?_⟩
      · obtain rfl := Storage.argument.inj hy
        refine ⟨?_, ?_⟩
        · change (Module.entry b x ω input w).values[0]? = some (some (.ptr ⟨d.data.size + 1, 0⟩))
          rw [hvalues, size_data h]
          simp [show 0 < b.valueTypes.size by omega]
        · change e.body.valueTypes[0]? = _
          rw [ho.types]
          rfl
      · rw [hq] at hgo
        rw [hinput o hgo]
        have hregion : (Module.entry b x ω input w).memory[d.data.size]? =
            some { bytes := input.bytes.toArray } := by
          rw [size_data h]
          exact Code.getElem?_framed_input
        exact Memory.bears_bytes hregion (by simp)
  · change (Module.entry b x ω input w).values[1]? = some (some (.ptr ⟨d.data.size + 2, 0⟩))
    rw [hvalues, size_data h]
    simp [show 1 < b.valueTypes.size by omega]
  · change e.body.valueTypes[1]? = _
    rw [ho.types]
    rfl

/-- A call returns with the output in the second buffer, and does not go beyond the buffers. -/
theorem returns_of_finishes (h : Module x d b) (ho : Opening plan e) (hf : Finishes t g v e e')
    (hbody : e'.body.Within b) (hd : e'.declarations = d)
    (hinput : ∃ o, g.outlet ⟨t.input, 0⟩ = .ok o ∧ o.values = input)
    (htype : w.elemType = v.elemType) (hlen : w.length = v.length) :
    Machine.StaysInside (x.program ω) (x.called b [.buffer input, .buffer w] ω) ∧
      ∃ n, ∀ fuel ≥ n, x.callBody b fuel [.buffer input, .buffer w] ω =
        (.returned none [input, v], x) := by
  obtain ⟨o, hgo, hvalues⟩ := hinput
  subst hd
  have hC : (h.context ω input w).Covers e' := ⟨hbody, fun _ _ hk => hk, .refl _⟩
  have hunique : ∀ o', g.outlet ⟨t.input, 0⟩ = .ok o' → o'.values = input := by
    intro o' hgo'
    rw [← Except.ok.inj (hgo.symm.trans hgo')]
    exact hvalues
  obtain ⟨m, σ, hreaches, hend, hσ, hout, hin⟩ := hf.run _ _ hC
    (receives_context h htype hlen) (stands_entry h ho (hf.passes.body.trans hbody) hunique)
  rw [h.here_entry ho.current ho.position] at hreaches
  obtain ⟨n, hrun⟩ := Machine.run_of_reaches hreaches hend nofun
  have hin' : σ.memory.Bears x.data.size input := by
    rw [← size_data h, ← hvalues]
    exact hin o hgo
  have hout' : σ.memory.Bears (x.data.size + 1) v := by
    rw [← size_data h]
    exact hout
  exact ⟨Machine.staysInside_of_run hrun, n, fun fuel hfuel =>
    h.callBody_eq hσ hin' hout' htype hlen (hrun fuel hfuel)⟩

end Returns

section Build

variable {log : List Key} {kind : Key → Builtin} {t₀ t : Transform} {plan : Plan} {p : Progress}
  {a a₁ a₂ : Assembler} {e' : Emitter} {s s' : Selection} {order order' : List Key} {g : Graph}
  {x v : Values} {code : Executable} {u : Unit} {r : Assembler × Progress}

structure Builds (t : Transform) (plan : Plan) (p : Progress) (s : Selection) (order : List Key)
    (a a₁ a₂ : Assembler) : Prop where
  output : t.output 0 = .ok s
  sorted : t.graph.dependencyOrder [s] = .ok order
  begins : Succeeds (Assembler.beginFunction plan.function
    [⟨"input", .ptr⟩, ⟨"output", .ptr⟩] none) (Assembler.new plan.module plan.settings) () a
  lowers : ∃ p', Succeeds (lowerBody t plan s order) (a, p) () (a₁, p')
  ends : Succeeds Assembler.endFunction a₁ () a₂

theorem succeeds_build
    (h : Succeeds (build t plan) (Assembler.new plan.module plan.settings, p) u r) :
    ∃ s order a a₁, Builds t plan p s order a a₁ r.1 := by
  obtain ⟨-, h₁⟩ := succeeds_refuse.1 h
  obtain ⟨s, _, houtput, h₂⟩ := succeeds_bind.1 h₁
  obtain ⟨hs, rfl⟩ := succeeds_liftExcept.1 houtput
  obtain ⟨order, _, hsort, h₃⟩ := succeeds_bind.1 h₂
  obtain ⟨horder, rfl⟩ := succeeds_liftExcept.1 hsort
  obtain ⟨_, _, hopen, h₄⟩ := succeeds_bind.1 h₃
  obtain ⟨a, hbegin, rfl⟩ := succeeds_assemble hopen
  obtain ⟨_, ⟨a₁, p₁⟩, hbody, hend⟩ := succeeds_bind.1 h₄
  obtain ⟨a₂, hfinish, rfl⟩ := succeeds_assemble hend
  exact ⟨s, order, a, a₁, hs, horder, hbegin, ⟨p₁, hbody⟩, hfinish⟩

/-- What is built computes the result that a solution has. -/
theorem Builds.finishes (h : Builds t plan p s' order' a a₁ a₂) (hp : p.storage = ∅)
    (ht : Transform.Follows log kind t₀ t)
    (hdone : Transform.Solution log kind t₀ x v s order g)
    (hin : (kind t₀.input).isInput = true) (hsmall : t₀.graph.Small)
    (hfit : t₀.graph.FitsAll s) (hsize : s.size < 2 ^ 31) :
    ∃ e e', Opening plan e ∧ Emits a₁ e' ∧ Finishes t g v e e' := by
  obtain rfl : s' = s :=
    Except.ok.inj (h.output.symm.trans ((ht.output_eq 0).trans hdone.output))
  have hres : ∀ r ∈ [s'], ∃ r', t.graph.resolve r = .ok r' :=
    List.forall_mem_singleton.2 ⟨_, Graph.resolve_of_fitsAll (ht.graph.shape.fitsAll hfit)⟩
  obtain ⟨-, -, hneeded, hordered⟩ := ht.graph.sound.of_dependencyOrder hres h.sorted
  have hsites : ∀ k ∈ order', Sited t.graph g kind k := fun k hk =>
    hdone.sited hsmall ht.graph ((hdone.mem_order_iff ht.graph k).2 ((hneeded k).1 hk))
  obtain ⟨e, ha, he⟩ := exists_opening h.begins
  obtain ⟨p', hbody⟩ := h.lowers
  obtain ⟨e', ha', hf⟩ := finishes_lowerBody hbody ha he hp (by rwa [ht.input]) hsites
    hordered.1 (hdone.supplies hsmall hfit hsize) (hdone.length_eq hfit)
  exact ⟨e, e', he, ha', hf⟩

/-- The finished module holds the function as it has been built. -/
theorem Builds.module {e : Emitter} (h : Builds t plan p s' order' a a₁ a₂) (he : Opening plan e)
    (ha : Emits a₁ e') (hf : Finishes t g v e e') (hcode : a₂.finalize = .ok code) :
    ∃ b, Module code e'.declarations b ∧ e'.body.Within b := by
  obtain ⟨body, b, helpers, hends⟩ := Assembler.succeeds_endFunction h.ends
  obtain rfl : body = e'.body := Option.some.inj (hends.opened.symm.trans ha.opened)
  have hbody : e'.body.Within b := Assembler.within_of_implicitReturn hends.finished
  have hid : b.id = ⟨0⟩ := (hf.passes.body.trans hbody).id.trans he.id
  have hsound : a₁.declarations.Sound := by
    rw [ha.declarations]
    exact hf.passes.declarations.sound he.sound
  exact ⟨b, ha.declarations ▸ hends.module hcode ha.defined hsound hid, hbody⟩

end Build

end Lower

namespace Compiled

open Lower

section Agreement

variable {log : List Key} {graph : Graph} {kind : Key → Builtin} {inputs : List (String × Key)}
  {outputs : List (String × Selection)} {t₀ t t' : Transform} {plan : Plan} {c : Compiled}
  {remarks : List Remark} {a : Assembler} {elemType : ElemType} {x v w : Values}
  {s : Selection} {order : List Key} {g : Graph}

theorem ofAssembler_eq_ok (h : ofAssembler t plan a = .ok c) : a.finalize = .ok c.code ∧
    c.code.exported plan.function = .ok c.entry ∧ t.outputType 0 = .ok c.outputType ∧
      t.outputSize 0 = .ok c.outputSize := by
  obtain ⟨code, hcode, h₁⟩ := bind_eq_ok_iff.1 h
  obtain ⟨_, -, h₂⟩ := bind_eq_ok_iff.1 h₁
  obtain ⟨outputType, htype, h₃⟩ := bind_eq_ok_iff.1 h₂
  obtain ⟨_, -, h₄⟩ := bind_eq_ok_iff.1 h₃
  obtain ⟨outputSize, hsize, h₅⟩ := bind_eq_ok_iff.1 h₄
  obtain ⟨entry, hentry, h₆⟩ := bind_eq_ok_iff.1 h₅
  obtain rfl := Except.ok.inj h₆
  exact ⟨hcode, hentry, htype, hsize⟩

/-- A transform that has been compiled has been built and its module finished. -/
theorem compile_eq_ok (h : compile t plan = (.ok c, remarks)) : ∃ s order a₀ a₁ a₂,
    Builds t plan { storage := ∅ } s order a₀ a₁ a₂ ∧ ofAssembler t plan a₂ = .ok c := by
  unfold compile at h
  rcases hrun : (Lower.build t plan).run.run
    (Assembler.new plan.module plan.settings, { storage := ∅ }) with ⟨r, a, p⟩
  simp only [hrun] at h
  obtain ⟨h, -⟩ := Prod.mk.inj h
  cases r with
  | error f => cases h
  | ok u =>
      obtain ⟨s, order, a₀, a₁, hbuilds⟩ := succeeds_build hrun
      exact ⟨s, order, a₀, a₁, a, hbuilds, h⟩

/-- The output buffer of the code has the type and the length of the result. -/
theorem output_eq (ht : Transform.Follows log kind t₀ t)
    (hdone : Transform.Solution log kind t₀ x v s order g) (hfit : t₀.graph.FitsAll s)
    (htype : t.outputType 0 = .ok c.outputType) (hsize : t.outputSize 0 = .ok c.outputSize) :
    c.outputType = v.elemType ∧ c.outputSize = v.length := by
  have hout : t.output 0 = .ok s := (ht.output_eq 0).trans hdone.output
  rw [Transform.outputSize, hout] at hsize
  refine ⟨?_, (Except.ok.inj hsize).symm.trans (hdone.length_eq hfit).symm⟩
  obtain ⟨s', hs', htype⟩ := bind_eq_ok_iff.1 htype
  obtain rfl := Except.ok.inj (hout.symm.trans hs')
  split at htype
  case h_1 r hr =>
    obtain rfl := Except.ok.inj htype
    exact (hdone.result.elemType (hdone.graph.shape.fitsAll hfit) hr).symm
  case h_2 => cases htype

/-- A call of the code leaves in the output buffer what a solution for the input has there, whatever
the surroundings are. -/
theorem callBody_of_solution (ht : Transform.Follows log kind t₀ t)
    (hin : (kind t₀.input).isInput = true) (hlive : t₀.graph.Live t₀.input)
    (hports : t₀.graph.Small) (hcompile : compile t plan = (.ok c, remarks))
    (hdone : Transform.Solution log kind t₀ x v s order g) (hfit : t₀.graph.FitsAll s)
    (hsize : s.size < 2 ^ 31) (htype : w.elemType = c.outputType)
    (hlen : w.length = c.outputSize) (ω : Surroundings) :
    Code.Machine.StaysInside (c.code.program ω) (c.code.called c.entry [.buffer x, .buffer w] ω) ∧
      ∃ n, ∀ fuel ≥ n, c.code.callBody c.entry fuel [.buffer x, .buffer w] ω =
        (.returned none [x, v], c.code) := by
  obtain ⟨s', order', a, a₁, a₂, hbuilds, hassembled⟩ := compile_eq_ok hcompile
  obtain ⟨hcode, hentry, hctype, hcsize⟩ := ofAssembler_eq_ok hassembled
  obtain ⟨e, e', he, ha, hf⟩ := hbuilds.finishes rfl ht hdone hin hports hfit hsize
  obtain ⟨b, hmodule, hbody⟩ := hbuilds.module he ha hf hcode
  obtain rfl := hmodule.exported _ _ hentry
  obtain ⟨hvtype, hvlen⟩ := output_eq ht hdone hfit hctype hcsize
  obtain ⟨e₀, he₀⟩ := hlive.exists_entry
  have hinput := hdone.exists_input he₀
  rw [← ht.input] at hinput
  exact returns_of_finishes hmodule he hf hbody rfl hinput (htype.trans hvtype)
    (hlen.trans hvlen)

/-- Compiled code agrees with the interpreter. Whatever calls the transform has seen, whatever the
settings are, and whatever the frame of a call finds in its places and wherever in memory it lies, a
call of the code leaves in the output buffer what the interpreter computes, it changes nothing else,
and no load or store leaves the buffer that it is meant for. -/
theorem callBody_of_compute (hgraph : Graph.History log graph) (hkind : graph.BuiltFrom kind)
    (hnew : Transform.new graph inputs outputs = .ok t₀) (hports : graph.Small)
    (houtput : ∀ s, t₀.output 0 = .ok s → s.size < 2 ^ 31) (before calls : List Transform.Call)
    (hcompile : compile (before.foldl Transform.after t₀) plan = (.ok c, remarks))
    (hrun : Succeeds (Transform.compute elemType x) (calls.foldl Transform.after t₀) v t')
    (htype : w.elemType = c.outputType) (hlen : w.length = c.outputSize) (ω : Surroundings) :
    Code.Machine.StaysInside (c.code.program ω) (c.code.called c.entry [.buffer x, .buffer w] ω) ∧
      ∃ n, ∀ fuel ≥ n, c.code.callBody c.entry fuel [.buffer x, .buffer w] ω =
        (.returned none [x, v], c.code) := by
  have hin := Transform.isInput_of_new hnew hkind
  obtain ⟨rfl, ⟨e₀, he₀, -⟩, -⟩ := Transform.new_eq_ok hnew
  have hfollows : Transform.Follows log kind t₀ t₀ := ⟨rfl, rfl, .refl hgraph hkind⟩
  obtain ⟨s, order, g, hdone, -⟩ := Transform.exists_finished (hfollows.foldl calls) hin
    (fun s hs => (Transform.fitsAll_of_new hnew hs).1) hrun
  have hfit := (Transform.fitsAll_of_new hnew hdone.output).1
  exact callBody_of_solution (hfollows.foldl before) hin (Graph.live_of_entry he₀) hports hcompile
    (hdone.solution hfit) hfit (houtput s hdone.output) htype hlen ω

end Agreement

section Doubling

def integerPair (k : Key) : Selection := .ofSpan ⟨⟨k, 0⟩, .integer, 0, 2, 2, false⟩

def upperPair (k : Key) : Selection := .ofSpan ⟨⟨k, 0⟩, .integer, 1, 2, 3, true⟩

/-- An input of three integers and a node that adds the last two of them to themselves. -/
def doublingKind (k : Key) : Builtin :=
  if k = ⟨1, 1⟩ then .binary .integer .add ⟨upperPair ⟨0, 1⟩⟩ ⟨upperPair ⟨0, 1⟩⟩ rfl rfl
  else .input .integer (some 3)

def doubling : Graph :=
  (Graph.replay [.addNumbered 0 (doublingKind ⟨0, 1⟩).toNode,
    .addNumbered 1 (doublingKind ⟨1, 1⟩).toNode]).2

theorem entry_doubling {k : Key} {e : Entry} (he : doubling.entry? k = some e) :
    e.node = (doublingKind k).toNode ∧
      ∃ size ≤ 3, e.outlets = [⟨"output", ⟨k, 0⟩, .integer, some size,
        .mk fun _ => .zeros .integer size⟩] := by
  have horder : doubling.order = [⟨0, 1⟩, ⟨1, 1⟩] := by decide +kernel
  have hk : k ∈ doubling.order :=
    ((Graph.history_replay _).sound.mem_order_iff k).2 (Graph.live_of_entry he)
  rw [horder] at hk
  fin_cases hk
  · obtain rfl := Option.some.inj he
    exact ⟨rfl, 3, le_rfl, rfl⟩
  · obtain rfl := Option.some.inj he
    exact ⟨rfl, 2, by decide, rfl⟩

theorem small_doubling : doubling.Small := by
  intro p o ho
  obtain ⟨e, he, hi⟩ := Graph.outlet_eq_ok_iff.1 ho
  obtain ⟨-, size, hsize, houtlets⟩ := entry_doubling he
  rw [houtlets] at hi
  obtain rfl := List.mem_singleton.1 (List.mem_of_getElem? hi)
  simp only [Option.getD_some]
  omega

def doubler : Transform := ⟨doubling, "input", ⟨0, 1⟩, [("output", integerPair ⟨1, 1⟩)]⟩

theorem new_doubling : Transform.new doubling [("input", ⟨0, 1⟩)] doubler.outputs = .ok doubler :=
  rfl

theorem size_doubler {s : Selection} (hs : doubler.output 0 = .ok s) : s.size < 2 ^ 31 := by
  obtain rfl := Except.ok.inj hs
  decide

theorem run_build_doubler (plan : Lower.Plan) (x : Assembler × Lower.Progress) :
    (Lower.build doubler plan).run.run x =
      (Lower.buildInOrder doubler plan (integerPair ⟨1, 1⟩) [⟨0, 1⟩, ⟨1, 1⟩]).run.run x := by
  have horder : doubler.graph.dependencyOrder [integerPair ⟨1, 1⟩] = .ok [⟨0, 1⟩, ⟨1, 1⟩] := by cbv
  exact Lower.run_build_of_order rfl rfl horder plan x

theorem exists_compile_doubler : ∃ c remarks, compile doubler = (.ok c, remarks) ∧
    c.outputType = .integer ∧ c.outputSize = 2 := by
  have hshape : (compile doubler).1.toOption.map (fun c => (c.outputType, c.outputSize)) =
      some (.integer, 2) := by
    simp only [compile, run_build_doubler]
    decide +kernel
  obtain ⟨c, hc, hshape⟩ := Option.map_eq_some_iff.1 hshape
  obtain ⟨htype, hsize⟩ := Prod.mk.inj hshape
  exact ⟨c, _, Prod.ext (toOption_eq_some_iff.1 hc) rfl, htype, hsize⟩

/-- Adding up in a loop gives what the interpreter gives, in any surroundings. -/
theorem callBody_doubler : ∃ c, (compile doubler).1 = .ok c ∧ ∀ ω,
    Code.Machine.StaysInside (c.code.program ω) (c.code.called c.entry
      [.buffer (.integers [2, 3, 4]), .buffer (.integers [0, 0])] ω) ∧
    ∃ n, ∀ fuel ≥ n, c.code.callBody c.entry fuel
        [.buffer (.integers [2, 3, 4]), .buffer (.integers [0, 0])] ω =
      (.returned none [.integers [2, 3, 4], .integers [6, 8]], c.code) := by
  have hrun : ((Transform.compute .integer (.integers [2, 3, 4])).run.run doubler).1 =
      .ok (.integers [6, 8]) := by
    cbv
  obtain ⟨c, remarks, hcompile, htype, hsize⟩ := exists_compile_doubler
  exact ⟨c, by rw [hcompile], callBody_of_compute (Graph.history_replay _)
    (fun k e he => (entry_doubling he).1) new_doubling small_doubling (fun _ => size_doubler) [] []
    hcompile (Prod.ext hrun rfl) htype.symm hsize.symm⟩

end Doubling

end Compiled

end Dataflow
