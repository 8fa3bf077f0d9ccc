import Dataflow.Proofs.Code.Linking
import Dataflow.Proofs.Code.Spare

/-!
# Data that nothing names

The bytes of a literal array that is refused stay with the module. They are defined along with all
other data and take a symbol of their own. As long as no function and no other datum has that name,
a function is ended, or fails to be, as it would have been without them.
-/

namespace Dataflow.Code.Assembler

variable {a a' : Assembler} {x : Datum}

section Symbols

theorem enters_endFunction (a : Assembler) : a.Enters (endFunction.run.run a).2 := by
  by_cases hopen : ∃ b, a.current? = some b
  · obtain ⟨b, hb⟩ := hopen
    cases hreturn : implicitReturn b with
    | error f =>
        rw [run_endFunction_of_error hb hreturn]
        exact .refl a
    | ok c =>
        rw [run_endFunction_of_ok hb hreturn]
        exact (enters_bind (enters_define c) fun _ _ _ _ => enters_defineHelpers).of_closed
  · rw [run_endFunction_of_not_opened fun b hb => hopen ⟨b, hb⟩]
    exact .refl a

theorem SymbolsNamed.mono (h : a.SymbolsNamed) (hsymbols : a'.symbols = a.symbols)
    (hfunctions : Prefix a.declarations.functions a'.declarations.functions)
    (hdata : Prefix a.declarations.data a'.declarations.data) : a'.SymbolsNamed :=
  fun name hname => (h name (hsymbols ▸ hname)).mono hfunctions hdata

/-- Requests declare, or enter symbols of what is declared. -/
theorem SymbolsNamed.perform (h : a.SymbolsNamed) (r : Request) :
    (r.perform.run.run a).2.SymbolsNamed := by
  cases r with
  | settings s =>
      rw [run_settings]
      rcases setSettings_cases a s with ⟨-, hset⟩ | ⟨-, hset⟩
      · rw [hset]
        exact h
      · rw [hset]
        exact h
  | begin name params result =>
      rw [run_begin]
      rcases a.beginFunction_cases name params result with ⟨-, -, hbegin⟩ | ⟨-, f, hbegin⟩
      · obtain ⟨body, ps, -, hbegun⟩ := a.exists_begun name params result
        rw [hbegin, hbegun]
        exact h.mono rfl (.push _ _) (.refl _)
      · rw [hbegin]
        exact h
  | emit c =>
      change ((Assembler.emit c.perform).run.run a).2.SymbolsNamed
      by_cases hopen : ∃ b, a.current? = some b
      · obtain ⟨b, hb⟩ := hopen
        obtain ⟨hadds, -⟩ := (Emit.Moves.perform c ⟨b, a.declarations, a.pools, a.settings⟩).adds
        rw [run_emit_of_opened (m := c.perform) hb rfl]
        exact h.mono rfl hadds.functions hadds.data
      · rw [run_emit_of_not_opened c.perform fun b hb => hopen ⟨b, hb⟩]
        exact h
  | finish =>
      rw [run_finish]
      exact (enters_endFunction a).named h

theorem symbolsNamed_after (name : String) (settings : Settings) (requests : List Request) :
    ((new name settings).after requests).SymbolsNamed := by
  suffices h : ∀ a : Assembler, a.SymbolsNamed → (a.after requests).SymbolsNamed from
    h _ fun _ h => absurd rfl h
  induction requests with
  | nil => exact fun a h => h
  | cons r rs ih => exact fun a h => ih _ (h.perform r)

end Symbols

/-- The second module has one more datum, under a name of its own. -/
structure Strays (id : DatumId) (x : Datum) (a a' : Assembler) : Prop where
  rest : a' = { a with
    declarations := (a.declarations.addDatum x).2
    symbols := a'.symbols
    definedData := a'.definedData }
  number : (a.declarations.addDatum x).1 = id
  unnamed : ¬ a.declarations.Bears x.name
  symbols : ∀ name ≠ x.name, a'.symbols.find? name = a.symbols.find? name
  definedData : ∀ i ≠ id, a'.definedData.contains i = a.definedData.contains i
  own : a'.symbols.find? x.name = none ∨ a'.definedData.contains id = true

variable {id : DatumId}

namespace Strays

/-- What has just been added has no symbol yet. -/
theorem of_addDatum (h : a.SymbolsNamed) (hx : ¬ a.declarations.Bears x.name) :
    a.Strays (a.declarations.addDatum x).1 x
      { a with declarations := (a.declarations.addDatum x).2 } where
  rest := rfl
  number := rfl
  unnamed := hx
  symbols _ _ := rfl
  definedData _ _ := rfl
  own := .inl (by_contra fun hname => hx (h x.name hname))

theorem exists_eq (h : a.Strays id x a') : ∃ symbols ids, a' = { a with
    declarations := (a.declarations.addDatum x).2, symbols := symbols, definedData := ids } :=
  ⟨_, _, h.rest⟩

theorem listing (h : a.Strays id x a') : a'.listing = a.listing := by
  rw [h.rest]
  rfl

end Strays

theorem tallies_defineDatum_of_strays {i : DatumId} {d : Datum} (h : a.Strays id x a')
    (hi : i ≠ id) (hname : d.name ≠ x.name) :
    Tallies (Strays id x) (defineDatum i d) (defineDatum i d) a a' := by
  have hdefined := h.definedData i hi
  have hsymbol := h.symbols d.name hname
  refine .after_get ?_
  rw [hdefined, hsymbol]
  split
  · exact .pure h _
  · cases a.symbols.find? d.name with
    | some s => cases s with
      | function => exact .throw h _
      | datum => exact .throw h _
    | none =>
        refine ⟨rfl, ?_, h.number, h.unnamed, fun name hne => ?_, fun j hj => ?_, ?_⟩
        · rw [h.rest]
          rfl
        · change (a'.symbols.insert d.name .datum).find? name = (a.symbols.insert d.name .datum).find? name
          rw [Table.find?_insert, Table.find?_insert, h.symbols name hne]
        · change (a'.definedData ++ [i]).contains j = (a.definedData ++ [i]).contains j
          rw [List.contains_append, List.contains_append, h.definedData j hj]
        · change (a'.symbols.insert d.name .datum).find? x.name = none ∨
            (a'.definedData ++ [i]).contains id = true
          rw [Table.find?_insert, if_neg hname.symm, List.contains_append, Bool.or_eq_true]
          exact h.own.imp_right .inl

/-- Its own name is free for the datum. -/
theorem tallies_defineDatum_stray (h : a.Strays id x a') :
    Tallies (Strays id x) (pure ()) (defineDatum id x) a a' := by
  refine .after_get_right ?_
  by_cases hdefined : a'.definedData.contains id = true
  · rw [if_pos hdefined]
    exact .pure h _
  · rw [if_neg hdefined, h.own.resolve_right hdefined]
    refine ⟨rfl, ?_, h.number, h.unnamed, fun name hne => ?_, fun i hi => ?_, .inr ?_⟩
    · rw [h.rest]
      rfl
    · exact (Table.find?_insert ..).trans ((if_neg hne).trans (h.symbols name hne))
    · change (a'.definedData ++ [id]).contains i = a.definedData.contains i
      rw [List.contains_append, h.definedData i hi]
      simp [hi]
    · change (a'.definedData ++ [id]).contains id = true
      simp

theorem tallies_defineData_of_strays (h : a.Strays id x a') :
    Tallies (Strays id x) defineData defineData a a' := by
  have hdata : a'.declarations.data.toList.zipIdx =
      a.declarations.data.toList.zipIdx ++ [(x, id.index)] := by
    rw [h.rest, ← h.number]
    change (a.declarations.data.push x).toList.zipIdx = _
    simp [List.zipIdx_append, Declarations.addDatum]
  refine .after_get ?_
  rw [hdata]
  refine .bind (.forIn_append h (fun ⟨d, i⟩ hd t t' ht => ?_) fun t t' ht => ?_)
    fun _ t t' ht => .pure ht _
  · have hd : a.declarations.data[i]? = some d := by
      simpa using List.mem_zipIdx_iff_getElem?.1 hd
    have hi : (⟨i⟩ : DatumId) ≠ id := by
      rw [← h.number]
      exact fun heq => (Array.getElem?_eq_some_iff.1 hd).1.ne (congrArg DatumId.index heq)
    exact (tallies_defineDatum_of_strays ht hi fun heq =>
      h.unnamed (.inr ⟨d, Array.mem_of_getElem? hd, heq⟩)).bind fun _ t t' ht => .pure ht _
  · have hstep := (tallies_defineDatum_stray ht).bind (k := fun _ => pure (ForInStep.yield PUnit.unit))
      fun _ t t' ht => .pure ht _
    rw [List.forIn_cons]
    refine hstep.bind (k := fun _ => pure PUnit.unit) fun r t t' ht => ?_
    cases r with
    | done u => exact .pure ht u
    | yield u => exact .pure ht u

theorem tallies_declareFunction_of_strays (h : a.Strays id x a') (function : FunctionId) :
    Tallies (Strays id x) (declareFunction function) (declareFunction function) a a' := by
  obtain ⟨symbols, ids, rfl⟩ := h.exists_eq
  refine .after_get ?_
  dsimp only
  split
  · exact .pure h _
  have hfunction : (a.declarations.addDatum x).2.function function =
    a.declarations.function function := rfl
  rw [hfunction]
  cases hs : a.declarations.function function with
  | error f => exact .throw h f
  | ok s =>
      have hname : s.name ≠ x.name := fun heq => h.unnamed (.inl ⟨s,
        Array.mem_of_getElem? (Declarations.function_eq_ok_iff.1 hs), heq⟩)
      have hsymbol : symbols.find? s.name = a.symbols.find? s.name := h.symbols s.name hname
      change Tallies (Strays id x) (if a.symbols.find? s.name = some .datum then _ else _)
        (if symbols.find? s.name = some .datum then _ else _) _ _
      rw [hsymbol]
      refine .refuse h ⟨rfl, rfl, h.number, h.unnamed, fun name hne => ?_, h.definedData, ?_⟩
      · change (symbols.insert s.name .function).find? name =
          (a.symbols.insert s.name .function).find? name
        rw [Table.find?_insert, Table.find?_insert]
        exact congrArg (fun y => if name = s.name then some Symbol.function else y) (h.symbols name hne)
      · exact h.own.imp_left fun hnone =>
          (Table.find?_insert ..).trans ((if_neg hname.symm).trans hnone)

theorem tallies_define_of_strays (h : a.Strays id x a') (b : Body) :
    Tallies (Strays id x) (define b) (define b) a a' := by
  unfold define
  refine (tallies_defineData_of_strays h).bind fun _ _ _ h => ?_
  refine (tallies_declareFunction_of_strays h _).bind fun _ _ _ h => ?_
  refine (Tallies.forM h fun i _ _ _ h => tallies_declareFunction_of_strays h i).bind fun _ _ _ h => ?_
  refine (Tallies.check h _).bind fun _ _ _ h => .refuse h ?_
  obtain ⟨symbols, ids, rfl⟩ := h.exists_eq
  exact ⟨rfl, rfl, h.number, h.unnamed, h.symbols, h.definedData, h.own⟩

theorem tallies_defineHelpers_of_strays (h : a.Strays id x a') :
    Tallies (Strays id x) defineHelpers defineHelpers a a' := by
  obtain ⟨symbols, ids, rfl⟩ := h.exists_eq
  refine .after_get (.after_modify (.bind (.forIn
    ⟨rfl, h.number, h.unnamed, h.symbols, h.definedData, h.own⟩ fun r _ t t' ht => ?_)
    fun _ t t' ht => .pure ht _))
  obtain ⟨symbols, ids, rfl⟩ := ht.exists_eq
  refine .after_get ((Tallies.check ht (t.declarations.function r.function)).bind fun s _ _ ht => ?_)
  refine (Tallies.check ht _).bind fun b _ _ ht => ?_
  exact (tallies_define_of_strays ht b).bind fun _ _ _ ht => .pure ht _

/-- The end of the function comes out as it would without the datum. -/
theorem tallies_endFunction_of_strays (h : a.Strays id x a') :
    Tallies (Strays id x) endFunction endFunction a a' := by
  have hcurrent : a'.current? = a.current? := by
    rw [h.rest]
    rfl
  unfold Tallies
  cases hb : a.current? with
  | none =>
      rw [run_endFunction_of_not_opened (a := a) (by simp [hb]),
        run_endFunction_of_not_opened (by simp [hcurrent, hb])]
      exact ⟨rfl, h⟩
  | some b =>
      cases hr : implicitReturn b with
      | error f =>
          rw [run_endFunction_of_error hb hr, run_endFunction_of_error (hcurrent.trans hb) hr]
          exact ⟨rfl, h⟩
      | ok c =>
          rw [run_endFunction_of_ok hb hr, run_endFunction_of_ok (hcurrent.trans hb) hr]
          have hclosed : Strays id x { a with stage := .closed, body := none }
              { a' with stage := .closed, body := none } :=
            ⟨by rw [h.rest], h.number, h.unnamed, h.symbols, h.definedData, h.own⟩
          exact (tallies_define_of_strays hclosed c).bind
            fun _ _ _ h => tallies_defineHelpers_of_strays h

end Dataflow.Code.Assembler
