import Dataflow.Proofs.Code.LoopRange

/-!
# Counted loops run their body for every number

A loop over `0, 1, …, n - 1` is entered with its variable at zero, and each round leaves it one
higher. An invariant that the body carries from each number to the next one holds for `n` behind
the loop, as long as it does not depend on the variables of scratch slots.
-/

namespace Dataflow.Code

namespace Emitter

structure Undisturbed (e : Emitter) (σ σ' : Store) : Prop where
  values : ∀ i < e.body.valueTypes.size, σ'.values[i]? = σ.values[i]?
  vars : ∀ x, e.Own x → σ'.vars[x.index]? = σ.vars[x.index]?
  memory : σ'.memory = σ.memory

theorem undisturbed_of_apart {e : Emitter} {x : VarId} {σ σ' : Store}
    (h : σ.Apart e.body.valueTypes.size x σ') (hx : ¬ e.Own x) : e.Undisturbed σ σ' := by
  refine ⟨h.values, fun y hy => h.vars _ fun hxy => ?_, h.memory⟩
  obtain rfl : y = x := congrArg VarId.mk hxy
  exact hx hy

end Emitter

namespace Emit

variable {e e' : Emitter}

theorem own_localVar {v : ValueId} {x : VarId} (h : Succeeds (localVar v) e x e') (he : e.Tidy) :
    e'.Own x := by
  simp only [localVar, succeeds_bind, succeeds_valueType, succeeds_newVar, succeeds_push,
    Body.push_eq_ok_iff, succeeds_pure] at h
  obtain ⟨t, _, ⟨-, rfl⟩, _, _, ⟨rfl, rfl⟩, _, _, ⟨_, ⟨-, rfl⟩, rfl⟩, rfl, rfl⟩ := h
  refine ⟨(Array.size_push _).symm ▸ Nat.lt_succ_self _, fun i hi => ?_⟩
  exact Nat.lt_irrefl _ (he.scratch i _ hi)

end Emit

namespace Context

variable {C : Context} {σ σ' : Store} {id : BlockId} {b : Body}

def activation (C : Context) : Activation := ⟨C.program, C.body, C.base, []⟩

theorem Fits.sized (h : C.Fits σ) : C.activation.Sized σ := ⟨h.values, h.vars⟩

theorem Fits.of_sized (h : C.Fits σ) (hσ : C.activation.Sized σ') (hmemory : σ'.memory = σ.memory) :
    C.Fits σ' :=
  ⟨hσ.values, hσ.vars, hmemory ▸ h.extents, fun i d hd => hmemory ▸ h.data i d hd⟩

theorem here_of_fresh (hid : b.current = id) (h : b.Fresh id) :
    C.here b σ = C.machine id 0 σ := by
  subst hid
  rw [here, Body.position_of_fresh h]

end Context

namespace CountedLoop

open Emit Context

/-- What a loop carries from round to round. A round may give values to variables that are declared
in it, and to no others but those that do not stand behind scratch slots. -/
structure Invariant (C : Context) (e e₂ e₃ : Emitter) (i : ValueId) (n : Nat)
    (I : Nat → Store → Prop) : Prop where
  stable : ∀ k σ σ', I k σ → e.Undisturbed σ σ' → C.Fits σ' → I k σ'
  round : ∀ k < n, ∀ σ, C.Fits σ → I k σ → σ.Carries e₂.body i (.i32 (.ofNat k)) →
    ∃ σ', C.Advances e₂.body e₃.body σ σ' ∧ I (k + 1) σ' ∧ ∀ x, ¬ e.Own x →
      x.index < e₂.body.varTypes.size → σ'.vars[x.index]? = σ.vars[x.index]?

theorem eq_ofNat_of_isInt {w : Word} {k : Nat} (h : w.IsInt .i32 k) (hk : k < 2 ^ 31) :
    w = .i32 (.ofNat k) := by
  obtain ⟨m, rfl, -, hm⟩ | ⟨m, -, ht, -⟩ := Word.isInt_cases h
  · rw [Int32.toInt_inj.1 (hm.symm.trans (Int32.toInt_ofNat_of_lt hk).symm)]
  · cases ht

/-- A round that begins with the invariant for a number gets to where the variable is raised with the
invariant for the next one. -/
theorem Invariant.through {C : Context} {e e₁ e₂ e₃ : Emitter} {p : LoopParts} {i : ValueId} {n k : Nat}
    {I : Nat → Store → Prop} {σ : Store} (hI : Invariant C e e₂ e₃ i n I)
    (hcounter : Succeeds (getVar p.var) e₁ i e₂)
    (hcurrent : e₁.body.current = p.body) (hentered : e₁.body.Fresh p.body)
    (hvar : e₁.body.varTypes[p.var.index]? = some .i32) (hown : ¬ e.Own p.var) (hgrows : e.Grows e₁)
    (hC₂ : C.Covers e₂) (hn : n < 2 ^ 31) (hk : k < n) (hσ : C.Fits σ)
    (hI₀ : I k σ) (hi : σ.Variable p.var .i32 k) : ∃ σ',
      Machine.Reaches C.program (C.machine p.body 0 σ) (C.here e₃.body σ') ∧ C.Fits σ' ∧ I (k + 1) σ' ∧
      (∀ j < e₁.body.valueTypes.size, σ'.values[j]? = σ.values[j]?) ∧
      σ'.vars[p.var.index]? = σ.vars[p.var.index]? := by
  obtain ⟨w, hw, hint⟩ := hi
  obtain rfl := eq_ofNat_of_isInt hint (hk.trans hn)
  obtain ⟨σ₁, hq, hcarries⟩ := yields_getVar hcounter hC₂ hσ hw hvar
  have hundisturbed : e.Undisturbed σ σ₁ := by
    refine ⟨fun j hj => hq.values j (hj.trans_le hgrows.body.valueTypes.size_le), fun y _ => ?_, hq.memory⟩
    rw [hq.vars]
  obtain ⟨σ', hadv, hI', hkept⟩ := hI.round k hk σ₁ hq.fits
    (hI.stable k σ σ₁ hI₀ hundisturbed hq.fits) hcarries
  have hall := hq.toAdvances.trans hadv
  have hreaches := hall.reaches
  rw [Context.Reaches, here_of_fresh hcurrent hentered] at hreaches
  have hlt : p.var.index < e₂.body.varTypes.size := (Array.getElem?_eq_some_iff.1
    ((Linear.straight (leaves_getVar _) hcounter).body.varTypes _ _ hvar)).1
  exact ⟨σ', hreaches, hall.fits, hI', hall.values, (hkept _ hown hlt).trans (by rw [hq.vars])⟩

/-- Code that is emitted between the beginning and the end of a loop is run for every number. -/
theorem advances_loop {n : Nat} {e e₁ e₂ e₃ e₄ : Emitter} {l l' : CountedLoop} {i : ValueId}
    (hbegin : Succeeds (idle.begin (Int32.ofNat n)) e l e₁)
    (hcounter : Succeeds l.counter e₁ i e₂) (hbody : e₂.Straight e₃)
    (hfinish : Succeeds l.finish e₃ l' e₄) (hn : n < 2 ^ 31) :
    e.Grows e₂ ∧ e₃.Grows e₄ ∧ ∀ (C : Context) (I : Nat → Store → Prop) (σ : Store),
      C.Covers e₄ → Invariant C e e₂ e₃ i n I → C.Fits σ → I 0 σ →
        ∃ σ', C.Advances e.body e₄.body σ σ' ∧ I n σ' := by
  obtain ⟨-, p, z, rfl, hbegun, -, -, -, -, -, hvar, hown⟩ := begun_of_beginRange hbegin
  have hread := Linear.straight (leaves_getVar _) hcounter
  have hline := hread.trans hbody
  have hended := ended_of_finish hfinish
  refine ⟨hbegun.toGrows.trans hread.toGrows, hended.toGrows, fun C I σ hC hI hσ h0 => ?_⟩
  -- Nothing has been emitted into the last two blocks of the loop before its end.
  have hlast : ∀ id ∈ [p.increment, p.after], e₃.body.Fresh id := by
    intro id hid
    obtain ⟨k, hk⟩ := hended.openAt id hid
    have hne := hended.ne id hid
    rw [hline.current] at hne
    have hblock := hline.blocks id.index fun hi => hne (congrArg BlockId.mk hi)
    exact hline.fresh (hbegun.untouched id hid k ⟨hblock ▸ hk.1, hk.2⟩) hne
  have hC₃ := hC.of_grows hended.toGrows
  have hC₂ := hC₃.of_grows hbody.toGrows
  have hA₁ : e₁.body.Within C.activation.body := (hC₂.of_grows hread.toGrows).body
  obtain ⟨hstep, is, t, m, σ₀, -, hvar', -, hle, hle', htested, hnumbers, henters, hapart, hready⟩ :=
    (Begins.range 0 (.ofNat n) 1).ready hbegin hA₁ hσ.sized
  obtain rfl := Option.some.inj (hvar'.symm.trans hvar)
  have hwithin := hline.body
  have hsize := hwithin.valueTypes.size_le
  have hwired : Wired C.activation p m (e₃.body.length p.increment) :=
    ⟨htested, hended.raised.mono hC.body (hle'.trans hsize), hnumbers⟩
  have hzero : (0 : Int32).toInt = 0 := rfl
  have hone : (1 : Int32).toInt = 1 := rfl
  have hbound : (Int32.ofNat n).toInt = n := Int32.toInt_ofNat_of_lt hn
  rw [hzero, hone, hbound, ← counterAt_zero 0 n 1] at hready
  -- The end of the body jumps to where the variable is raised.
  have hjump : ∀ σ', Machine.Reaches C.program (C.here e₃.body σ')
      (C.machine p.increment (e₃.body.length p.increment) σ') := by
    intro σ'
    obtain ⟨k, hk, hposition, ht⟩ := hended.jump
    rw [Body.length_of_fresh (hlast _ (by simp)), Context.here, ← hposition]
    exact (Activation.along_jump (A := C.activation) (hC.body.closed hk (by simp [ht])) ht).reaches
  have hfits : ∀ σ₁ σ₂, C.Fits σ₁ → C.activation.Sized σ₂ →
      σ₁.Apart e.body.valueTypes.size p.var σ₂ → C.Fits σ₂ ∧ ∀ k, I k σ₁ → I k σ₂ := by
    intro σ₁ σ₂ hσ₁ hσ₂ happ
    have hfits := hσ₁.of_sized hσ₂ happ.memory
    have hundisturbed := Emitter.undisturbed_of_apart happ hown
    exact ⟨hfits, fun k hk => hI.stable k σ₁ σ₂ hk hundisturbed hfits⟩
  let P (k : Nat) (σ' : Store) : Prop :=
    C.Fits σ' ∧ I k σ' ∧ ∀ j < e.body.valueTypes.size, σ'.values[j]? = σ.values[j]?
  let B (σ₁ σ₂ : Store) : Prop := Spares C.activation p σ₁ σ₂ ∧ Machine.Reaches C.program
    (C.machine p.body 0 σ₁) (C.machine p.increment (e₃.body.length p.increment) σ₂)
  have hround : ∀ k < n, ∀ σ₁ σ₂, P k σ₁ → C.activation.Sized σ₂ → σ₁.Apart m p.var σ₂ →
      σ₂.Variable p.var .i32 k → ∃ σ₃, B σ₂ σ₃ ∧ ∀ σ₄, C.activation.Sized σ₄ → σ₃.Apart m p.var σ₄ →
        P (k + 1) σ₄ := by
    rintro k hk σ₁ σ₂ ⟨hσ₁, hI₁, hvalues₁⟩ hσ₂ happ hi
    obtain ⟨hfits₂, hI₂⟩ := hfits σ₁ σ₂ hσ₁ hσ₂ (happ.mono hle)
    obtain ⟨σ₃, hreaches, hσ₃, hI₃, hvalues₃, hvar₃⟩ := hI.through hcounter hbegun.current
      hbegun.entered hvar hown hbegun.toGrows hC₂ hn hk hfits₂ (hI₂ k hI₁) hi
    have hspares : Spares C.activation p σ₂ σ₃ :=
      ⟨fun _ => hσ₃.sized, hvar₃, fun v hv => hvalues₃ _ ((hnumbers v hv).trans_le hle')⟩
    refine ⟨σ₃, ⟨hspares, hreaches.trans (hjump σ₃)⟩, fun σ₄ hσ₄ happ' => ?_⟩
    obtain ⟨hfits₄, hI₄⟩ := hfits σ₃ σ₄ hσ₃ hσ₄ (happ'.mono hle)
    refine ⟨hfits₄, hI₄ _ hI₃, fun j hj => ?_⟩
    rw [happ'.values j (by omega), hvalues₃ j (by omega), happ.values j (by omega), hvalues₁ j hj]
  obtain ⟨hσ₀, hI₀⟩ := hfits σ σ₀ hσ (henters.sized hσ.sized) hapart
  obtain ⟨σ₁, hrounds, ⟨hσ₁, hI₁, hvalues₁⟩, hready₁⟩ := hwired.rounds (P := P) (B := B) (m := n)
    Int.one_pos (fun _ _ h => h.1) (fun k σ₁ σ₂ hk hP hσ₂ _ happ hi => by
      rw [Int.mul_one, Int.zero_add] at hk hi
      obtain ⟨σ₃, hB, hnext⟩ := hround k (by omega) σ₁ σ₂ hP hσ₂ happ hi
      exact ⟨σ₃, hB, fun σ₄ hraise happ' => hnext σ₄ (hraise.sized (hB.1.sized hσ₂)) happ'⟩)
    (fun j _ => by omega) ⟨hσ₀, hI₀ 0 h0, hapart.values⟩ hready
  rw [Nat.zero_add] at hI₁
  obtain ⟨σ', hleaves, happ, hready'⟩ := hwired.test hready₁
  rw [if_neg (not_lt.2 (le_max_right _ _))] at hleaves
  obtain ⟨hσ', hI'⟩ := hfits σ₁ σ' hσ₁ hready'.sized (happ.mono hle)
  have hall := (henters.reaches.trans (hrounds.reaches fun _ _ h => h.2)).trans hleaves.reaches
  have hafter : e₄.body.Fresh p.after := by
    obtain ⟨label, hlabel⟩ := hlast p.after (by simp)
    exact ⟨label, hended.after.trans hlabel⟩
  refine ⟨σ', ⟨?_, hσ', ?_, fun j hj => ?_⟩, hI' n hI₁⟩
  · rw [Context.Reaches, here_of_fresh hended.current hafter]
    exact hall
  · exact (hbegun.body.trans (hwithin.trans hended.body)).valueTypes.size_le
  · exact (happ.values j (by omega)).trans (hvalues₁ j hj)

end CountedLoop

end Dataflow.Code
