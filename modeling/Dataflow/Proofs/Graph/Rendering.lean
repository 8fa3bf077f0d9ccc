import Dataflow.Proofs.Graph.Held
import Dataflow.Proofs.Graph.Reference

/-!
# References that read back

The text of a span names a node and an outlet by tokens and puts indices in decimal digits, so it
is of the language of references, and means the span again. This is so for each span that can be
made from an outlet of the graph now: for the spans that some selection resolves to, and for those
that a text stands for.
-/

namespace Dataflow

namespace Reference

section Numerals

theorem isIndex_toString {n : Nat} (h : n < 2 ^ 64) : IsIndex (toString n) n := by
  have hdigits : (toString n).toList = Nat.toDigits 10 n := by
    simp [toString, Nat.repr]
  refine ⟨_, Or.inl hdigits, Nat.toDigits_ne_nil, fun c hc => ?_, ?_, h⟩
  · exact Nat.isDigit_of_mem_toDigits (by decide) (by decide) hc
  · rw [← foldl_digits]
    exact (Nat.ofDigitChars_toDigits (by decide) (by decide)).symm

end Numerals

section Phrases

def Selector.ofSpan (a : Span) : Selector :=
  if !a.isFixed then .whole else if a.length = 1 then .single a.start else .slice a.start a.stop

def Selector.chars : Selector → List Char
  | .whole => []
  | .single index => '[' :: ((toString index).toList ++ [']'])
  | .slice start stop => '[' :: ((toString start).toList ++ ':' :: ((toString stop).toList ++ [']']))

def Selector.tokens : Selector → List Token
  | .whole => []
  | .single index => [.delimiter '[', .word (toString index), .delimiter ']']
  | .slice start stop =>
    [.delimiter '[', .word (toString start), .delimiter ':', .word (toString stop), .delimiter ']']

def Phrase.chars (p : Phrase) : List Char :=
  p.node.toList ++ '.' :: (p.port.toList ++ p.selector.chars)

def Phrase.tokens (p : Phrase) : List Token :=
  .word p.node :: .delimiter '.' :: .word p.port :: p.selector.tokens

def Selector.Readable : Selector → Prop
  | .whole => True
  | .single index => index < 2 ^ 64
  | .slice start stop => start < 2 ^ 64 ∧ stop < 2 ^ 64

def Ends (cs : List Char) : Prop := ∀ c, cs.head? = some c → isTokenChar c = false

variable {cs : List Char} {ts : List Token}

theorem ends_delimiter {c : Char} (h : isDelimiter c = true) : Ends (c :: cs) := by
  intro c' hc
  obtain rfl := Option.some.inj hc
  simp [isTokenChar, h]

theorem tokenizes_word {text : String} (h : IsToken text) (hend : Ends cs)
    (hts : Tokenizes cs ts) : Tokenizes (text.toList ++ cs) (.word text :: ts) := by
  have hword := Tokenizes.word h.1 h.2 hend hts
  rwa [String.ofList_toList] at hword

theorem tokenizes_selector (s : Selector) (hend : Ends cs) (hts : Tokenizes cs ts) :
    Tokenizes (s.chars ++ cs) (s.tokens ++ ts) ∧ Ends (s.chars ++ cs) := by
  have hclose : Tokenizes (']' :: cs) (.delimiter ']' :: ts) := .delimiter rfl hts
  have hnumeral : ∀ n {c cs ts}, isDelimiter c = true → Tokenizes (c :: cs) ts →
      Tokenizes ((toString n).toList ++ c :: cs) (.word (toString n) :: ts) :=
    fun (n : Nat) _ _ _ hc h => tokenizes_word (NodeId.isToken_toString n) (ends_delimiter hc) h
  cases s with
  | whole => exact ⟨hts, hend⟩
  | single index =>
      refine ⟨?_, ends_delimiter rfl⟩
      have hindex := hnumeral index rfl hclose
      simpa [Selector.chars, Selector.tokens] using Tokenizes.delimiter (c := '[') rfl hindex
  | slice start stop =>
      refine ⟨?_, ends_delimiter rfl⟩
      have hstop := Tokenizes.delimiter (c := ':') rfl (hnumeral stop rfl hclose)
      have hstart := hnumeral start rfl hstop
      simpa [Selector.chars, Selector.tokens] using Tokenizes.delimiter (c := '[') rfl hstart

theorem tokenizes_phrase {p : Phrase} (hnode : IsToken p.node) (hport : IsToken p.port)
    (hend : Ends cs) (hts : Tokenizes cs ts) : Tokenizes (p.chars ++ cs) (p.tokens ++ ts) := by
  obtain ⟨hselector, hends⟩ := tokenizes_selector p.selector hend hts
  have h := tokenizes_word hnode (ends_delimiter (c := '.') rfl)
    (.delimiter rfl (tokenizes_word hport hends hselector))
  simpa [Phrase.chars, Phrase.tokens] using h

theorem derivesRange_tokens {p : Phrase} (h : p.selector.Readable) : DerivesRange p.tokens p := by
  obtain ⟨node, port, selector⟩ := p
  cases selector with
  | whole => exact .whole node port
  | single index => exact .single node port (isIndex_toString h)
  | slice start stop => exact .slice node port (isIndex_toString h.1) (isIndex_toString h.2)

end Phrases

section Lists

def charsMore (ps : List Phrase) : List Char := ps.flatMap fun p => ',' :: p.chars

def tokensMore (ps : List Phrase) : List Token := ps.flatMap fun p => .delimiter ',' :: p.tokens

def charsOf : List Phrase → List Char
  | [] => []
  | [p] => p.chars
  | p :: q :: ps => '{' :: (p.chars ++ charsMore (q :: ps) ++ ['}'])

def tokensOf : List Phrase → List Token
  | [] => []
  | [p] => p.tokens
  | p :: q :: ps => .delimiter '{' :: (p.tokens ++ tokensMore (q :: ps) ++ [.delimiter '}'])

structure Phrase.Sound (p : Phrase) : Prop where
  node : IsToken p.node
  port : IsToken p.port
  selector : p.selector.Readable

variable {ps : List Phrase}

theorem tokenizes_more (h : ∀ p ∈ ps, p.Sound) :
    Tokenizes (charsMore ps ++ ['}']) (tokensMore ps ++ [.delimiter '}']) ∧
      Ends (charsMore ps ++ ['}']) := by
  induction ps with
  | nil => exact ⟨.delimiter rfl .nil, ends_delimiter rfl⟩
  | cons p ps ih =>
      obtain ⟨hmore, hends⟩ := ih fun q hq => h q (by simp [hq])
      obtain ⟨hnode, hport, -⟩ := h p (by simp)
      refine ⟨?_, ends_delimiter rfl⟩
      have hp := Tokenizes.delimiter (c := ',') rfl (tokenizes_phrase hnode hport hends hmore)
      simpa [charsMore, tokensMore] using hp

theorem derivesMore_tokens (h : ∀ p ∈ ps, p.Sound) : DerivesMore (tokensMore ps) ps := by
  induction ps with
  | nil => exact .nil
  | cons p ps ih =>
      exact .cons (derivesRange_tokens (h p (by simp)).selector) (ih fun q hq => h q (by simp [hq]))

/-- The written form of phrases is of the language, and stands for these phrases. -/
theorem derives_charsOf (hne : ps ≠ []) (h : ∀ p ∈ ps, p.Sound) :
    Tokenizes (charsOf ps) (tokensOf ps) ∧ Derives (tokensOf ps) ps := by
  match ps, hne with
  | [p], _ =>
      obtain ⟨hnode, hport, hselector⟩ := h p (by simp)
      refine ⟨?_, .range (derivesRange_tokens hselector)⟩
      simpa [charsOf, tokensOf] using
        tokenizes_phrase hnode hport (show Ends [] from fun _ hc => by cases hc) .nil
  | p :: q :: ps, _ =>
      obtain ⟨hnode, hport, hselector⟩ := h p (by simp)
      have hrest : ∀ r ∈ q :: ps, r.Sound := fun r hr => h r (List.mem_cons_of_mem _ hr)
      obtain ⟨hmore, hends⟩ := tokenizes_more hrest
      refine ⟨?_, .braces (derivesRange_tokens hselector) (derivesMore_tokens hrest)⟩
      have hp := Tokenizes.delimiter (c := '{') rfl (tokenizes_phrase hnode hport hends hmore)
      simpa [charsOf, tokensOf] using hp

theorem intercalate_chars (p : Phrase) (ps : List Phrase) :
    [','].intercalate ((p :: ps).map Phrase.chars) = p.chars ++ charsMore ps := by
  induction ps generalizing p with
  | nil => simp [charsMore]
  | cons q ps ih =>
      rw [List.map_cons, List.map_cons, List.intercalate_cons_cons, ← List.map_cons, ih]
      simp [charsMore]

end Lists

section Spans

variable {g : Graph} {s : Selection} {a : Span} {e : Entry} {o : Outlet}

theorem ofSpan_of_length (hfixed : a.isFixed = true) (h : a.length ≠ 1) :
    Selector.ofSpan a = .slice a.start a.stop := by
  simp [Selector.ofSpan, hfixed, h]

/-- The length of a span that follows its outlet is not written. -/
theorem ofSpan_refresh (a : Span) (size : Nat) :
    Selector.ofSpan (a.refresh size) = Selector.ofSpan a := by
  cases hfixed : a.isFixed <;> simp [Selector.ofSpan, Span.refresh, Span.stop, hfixed]

/-- The text of a span is the written form of a phrase. -/
theorem spanText_eq (he : g.entry? a.port.node = some e) (ho : g.outlet a.port = .ok o) :
    spanText g a = .ok (String.ofList (Phrase.chars ⟨e.id.text, o.name, .ofSpan a⟩)) := by
  unfold spanText
  simp only [he, ho]
  cases hfixed : a.isFixed with
  | false =>
      refine congrArg Except.ok (String.toList_inj.1 ?_)
      simp [Selector.ofSpan, hfixed, Phrase.chars, Selector.chars, toString]
  | true =>
      by_cases hone : a.length = 1
      · simp only [hone, if_true]
        refine congrArg Except.ok (String.toList_inj.1 ?_)
        simp [Selector.ofSpan, hfixed, hone, Phrase.chars, Selector.chars, toString]
      · simp only [hone, if_false, ofSpan_of_length hfixed hone]
        refine congrArg Except.ok (String.toList_inj.1 ?_)
        simp [Phrase.chars, Selector.chars, toString]

theorem render_eq {ps : List Phrase} (hne : ps ≠ [])
    (h : List.Forall₂ (fun a p => spanText g a = .ok (String.ofList (Phrase.chars p))) s.spans ps) :
    render g s = .ok (String.ofList (charsOf ps)) := by
  have hparts : s.spans.mapM (spanText g) = .ok (ps.map fun p => String.ofList p.chars) := by
    rw [mapM_eq_ok_iff, List.forall₂_map_right_iff]
    exact h
  have hspans : s.spans.isEmpty = false := by
    rw [List.isEmpty_eq_false_iff, ne_eq, ← List.length_eq_zero_iff, h.length_eq,
      List.length_eq_zero_iff]
    exact hne
  unfold render
  rw [hspans, hparts]
  match ps, hne with
  | [p], _ => rfl
  | p :: q :: ps, _ =>
      refine congrArg Except.ok (String.toList_inj.1 ?_)
      simp [charsOf, String.toList_intercalate, ← intercalate_chars, Function.comp_def]

def Referable (g : Graph) (a : Span) : Prop :=
  ∃ o, g.outlet a.port = .ok o ∧ (a = .whole o ∨ ∃ start count, Span.part o start count = .ok a)

theorem denotes_ofSpan (h : a = .whole o ∨ ∃ start count, Span.part o start count = .ok a) :
    (Selector.ofSpan a).Denotes o a := by
  rcases h with rfl | ⟨start, count, h⟩
  · exact .whole
  · obtain ⟨size, hsize, hstop, rfl⟩ := part_eq_ok_iff.1 h
    by_cases hone : count = 1
    · subst hone
      exact .single hsize hstop
    · rw [ofSpan_of_length rfl hone]
      have hslice := Selector.Denotes.slice hsize (Nat.le_add_right start count) hstop
      rwa [Nat.add_sub_cancel_left] at hslice

theorem readable_ofSpan (h : a = .whole o ∨ ∃ start count, Span.part o start count = .ok a)
    (hsize : o.size.getD 0 < 2 ^ 64) : (Selector.ofSpan a).Readable := by
  rcases h with rfl | ⟨start, count, h⟩
  · trivial
  · obtain ⟨size, hsome, hstop, rfl⟩ := part_eq_ok_iff.1 h
    rw [hsome, Option.getD_some] at hsize
    by_cases hone : count = 1
    · subst hone
      exact Nat.lt_of_succ_le (hstop.trans hsize.le)
    · rw [ofSpan_of_length rfl hone]
      exact ⟨(Nat.le_add_right _ _).trans hstop |>.trans_lt hsize, hstop.trans_lt hsize⟩

theorem referable_of_fits (h : g.Fits a) (htracks : a.Tracks)
    (hport : ∀ o, g.outlet a.port = .ok o → o.port = a.port) : Referable g a := by
  obtain ⟨o, ho, hsize, ht, hstop, hself⟩ := h
  have hp := hport o ho
  refine ⟨o, ho, ?_⟩
  obtain ⟨port, t, start, length, size, fixed⟩ := a
  dsimp only at hsize ht hp
  subst hp ht
  cases fixed with
  | false =>
      left
      obtain rfl : start = 0 := htracks rfl
      obtain rfl : size = length := congrArg Span.length hself
      rw [Span.whole, hsize]
      rfl
  | true => exact .inr ⟨start, length, part_eq_ok_iff.2 ⟨size, hsize, hstop, rfl⟩⟩

theorem referable_of_denotes {p : Phrase} (h : p.Denotes g a)
    (hport : ∀ o, Names g p.node p.port o → g.outlet o.port = .ok o) : Referable g a := by
  obtain ⟨node, port, selector⟩ := p
  obtain ⟨o, hnames, hselector⟩ := h
  have ho := hport o hnames
  cases hselector with
  | whole => exact ⟨o, ho, Or.inl rfl⟩
  | @single index size hsize hlt =>
      exact ⟨o, ho, Or.inr ⟨index, 1, part_eq_ok_iff.2 ⟨size, hsize, hlt, rfl⟩⟩⟩
  | @slice start stop size hsize hle hstop =>
      exact ⟨o, ho, Or.inr ⟨start, stop - start, part_eq_ok_iff.2 ⟨size, hsize, by omega, rfl⟩⟩⟩

end Spans

section Main

variable {log : List Key} {g : Graph} {kind : Key → Builtin} {s r : Selection} {a : Span}

/-- The outlets of built-in nodes have one name. -/
theorem name_of_outlet (h : Graph.History log g) (hk : g.BuiltFrom kind) {p : Port} {o : Outlet}
    (ho : g.outlet p = .ok o) : o.name = Builtin.outletName := by
  obtain ⟨e, he, hi⟩ := Graph.outlet_eq_ok_iff.1 ho
  refine h.entry_induction (P := fun e => ∀ b : Builtin, e.node = b.toNode →
    ∀ o ∈ e.outlets, o.name = Builtin.outletName) ?_ ?_ ?_ _ e he _ (hk _ e he) o
    (List.mem_of_getElem? hi)
  · rintro g id node inlets specs k - hspecs b rfl o ho
    obtain ⟨_, -, hs⟩ := bind_eq_ok_iff.1 hspecs
    obtain rfl := Except.ok.inj hs
    obtain rfl := List.mem_singleton.1 ho
    rfl
  · intro e inputs hnamed b hb o ho
    have hnames := congrArg (List.map Outlet.name) (Graph.blank_apply (e.node.compute inputs)
      e.outlets)
    simp only [List.map_map] at hnames
    have hname : o.name ∈ e.outlets.map Outlet.name :=
      hnames ▸ List.mem_map_of_mem (f := Outlet.name ∘ Outlet.blank) ho
    obtain ⟨o', ho', hname⟩ := List.mem_map.1 hname
    exact hname ▸ hnamed b hb o' ho'
  · intro e i o size hnamed hi _ b hb o' ho'
    rcases List.mem_or_eq_of_mem_set ho' with ho' | rfl
    · exact hnamed b hb o' ho'
    · exact hnamed b hb o (List.mem_of_getElem? hi)

/-- The node of an outlet has the outlet under its name, and the outlet knows where it is. -/
theorem names_of_outlet (h : Graph.History log g) (hk : g.BuiltFrom kind) {p : Port} {o : Outlet}
    (ho : g.outlet p = .ok o) :
    ∃ e, g.entry? p.node = some e ∧ Names g e.id.text o.name o ∧ o.port = p := by
  obtain ⟨e, he, hi⟩ := Graph.outlet_eq_ok_iff.1 ho
  obtain ⟨o', ho', -⟩ := (h.built hk).outlet _ e he
  have hport := (h.sound.placed _ e he).ports _ o hi
  rw [ho'] at hi
  obtain rfl := List.mem_singleton.1 (List.mem_of_getElem? hi)
  refine ⟨e, he, (names_iff_of_history h).2 ⟨_, e, he, rfl, ?_⟩, hport⟩
  rw [ho']
  simp

theorem outlet_of_names (h : Graph.History log g) {node port : String} {o : Outlet}
    (hnames : Names g node port o) : g.outlet o.port = .ok o := by
  obtain ⟨p, ho⟩ := hnames.exists_outlet
  obtain ⟨e, he, hi⟩ := Graph.outlet_eq_ok_iff.1 ho
  rw [(h.sound.placed _ e he).ports _ o hi]
  exact ho

/-- A span that can be made from an outlet has a written form that means it. -/
theorem exists_phrase (h : Graph.History log g) (hk : g.BuiltFrom kind)
    (hsmall : ∀ p o, g.outlet p = .ok o → o.size.getD 0 < 2 ^ 64) (ha : Referable g a) :
    ∃ p : Phrase, spanText g a = .ok (String.ofList p.chars) ∧ p.Sound ∧ p.Denotes g a := by
  obtain ⟨o, ho, hmade⟩ := ha
  obtain ⟨e, he, hnames, -⟩ := names_of_outlet h hk ho
  refine ⟨⟨e.id.text, o.name, .ofSpan a⟩, spanText_eq he ho, ⟨e.id.isToken, ?_, ?_⟩, o,
    hnames, denotes_ofSpan hmade⟩
  · change IsToken o.name
    rw [name_of_outlet h hk ho]
    decide
  · exact readable_ofSpan hmade (hsmall _ o ho)

/-- A selection of spans that can be made from outlets has a text that stands for it. -/
theorem exists_render (h : Graph.History log g) (hk : g.BuiltFrom kind)
    (hsmall : ∀ p o, g.outlet p = .ok o → o.size.getD 0 < 2 ^ 64) (hne : s.spans ≠ [])
    (hs : ∀ a ∈ s.spans, Referable g a) (hu : s.Uniform) :
    ∃ text, render g s = .ok text ∧ parse g text = .ok s := by
  have : Nonempty Phrase := ⟨⟨"", "", .whole⟩⟩
  choose! phrase htext hsound hdenotes using fun a ha => exists_phrase h hk hsmall (hs a ha)
  have hps : s.spans.map phrase ≠ [] := by simpa using hne
  have hall : ∀ p ∈ s.spans.map phrase, p.Sound := by simpa using hsound
  obtain ⟨htokens, hderives⟩ := derives_charsOf hps hall
  refine ⟨_, render_eq hps ?_, parse_eq_ok_iff.2 ⟨_, _, ?_, hderives, ?_, hu⟩⟩
  · rw [List.forall₂_map_right_iff, List.forall₂_same]
    exact htext
  · rwa [String.toList_ofList]
  · rw [List.forall₂_map_left_iff, List.forall₂_same]
    exact hdenotes

theorem spanText_of_resolveSpan {b : Span} (hr : g.resolveSpan a = .ok b) :
    spanText g a = spanText g b := by
  obtain ⟨o, size, ho, -, -, -, rfl⟩ := Graph.resolveSpan_eq_ok_iff.1 hr
  obtain ⟨e, he, -⟩ := Graph.outlet_eq_ok_iff.1 ho
  rw [spanText_eq he ho, spanText_eq (a := a.refresh size) he ho, ofSpan_refresh]

/-- The text of a selection does not depend on the sizes that its spans remember. -/
theorem render_of_resolve (hr : g.resolve s = .ok r) : render g s = render g r := by
  have hall := (Graph.resolve_eq_ok_iff.1 hr).1
  have hparts : s.spans.mapM (spanText g) = r.spans.mapM (spanText g) := by
    generalize s.spans = spans, r.spans = resolved at hall
    induction hall with
    | nil => rfl
    | cons hab _ ih => rw [List.mapM_cons, List.mapM_cons, spanText_of_resolveSpan hab, ih]
  have hempty : s.spans.isEmpty = r.spans.isEmpty := by
    generalize s.spans = spans, r.spans = resolved at hall
    cases hall <;> rfl
  rw [render, render, hparts, hempty]

theorem tracks_of_resolve (h : ∀ a ∈ s.spans, a.Tracks) (hr : g.resolve s = .ok r) :
    ∀ a ∈ r.spans, a.Tracks := by
  intro b hb
  obtain ⟨a, ha, hab⟩ := exists_of_mem_mapM (mapM_eq_ok_iff.2 (Graph.resolve_eq_ok_iff.1 hr).1) hb
  obtain ⟨_, _, -, -, -, -, rfl⟩ := Graph.resolveSpan_eq_ok_iff.1 hab
  exact h a ha

/-- Writing and reading selections of a graph of built-in nodes undo each other. A selection with
spans that resolves has a text, and this reads back as what the selection resolves to, span for
span; a span that follows its outlet begins where the outlet does, as in all that is drawn. Whatever
a text stands for, spans of outlets without a size included, has a text that stands for the same. -/
theorem parse_render (h : Graph.History log g) (hk : g.BuiltFrom kind)
    (hsmall : ∀ p o, g.outlet p = .ok o → o.size.getD 0 < 2 ^ 64) :
    (∀ s r, (∀ a ∈ s.spans, a.Tracks) → s.spans ≠ [] → g.resolve s = .ok r →
      ∃ text, render g s = .ok text ∧ parse g text = .ok r) ∧
    ∀ text s, parse g text = .ok s →
      ∃ text', render g s = .ok text' ∧ parse g text' = .ok s := by
  refine ⟨fun s r htracks hne hr => ?_, fun text s hs => ?_⟩
  · obtain ⟨hu, hfits⟩ := Graph.fitsAll_of_resolve hr
    have hlen := (Graph.resolve_eq_ok_iff.1 hr).1.length_eq
    have hne' : r.spans ≠ [] := by
      rw [ne_eq, ← List.length_eq_zero_iff, ← hlen, List.length_eq_zero_iff]
      exact hne
    rw [render_of_resolve hr]
    refine exists_render h hk hsmall hne' (fun a ha => ?_) hu
    refine referable_of_fits (hfits a ha) (tracks_of_resolve htracks hr a ha) fun o ho => ?_
    obtain ⟨-, -, -, hport⟩ := names_of_outlet h hk ho
    exact hport
  · obtain ⟨ts, ps, -, hderives, hall, hu⟩ := parse_eq_ok_iff.1 hs
    refine exists_render h hk hsmall ?_ (fun a ha => ?_) hu
    · intro hnil
      rw [hnil, List.forall₂_nil_right_iff] at hall
      subst hall
      cases hderives
    · obtain ⟨i, hi, rfl⟩ := List.getElem_of_mem ha
      exact referable_of_denotes (hall.get (hall.length_eq ▸ hi) hi)
        fun o ho => outlet_of_names h ho

/-- An input without a size, and one in the place of a node that was removed. -/
def replacement (k : Key) : Builtin :=
  .input .boolean (if k = ⟨0, 2⟩ then some 3 else none)

def replaced : Graph :=
  (Graph.replay [.addNumbered 0 (replacement ⟨0, 1⟩).toNode,
    .addNumbered 1 (replacement ⟨1, 1⟩).toNode, .remove ⟨0, 1⟩,
    .addNumbered 2 (replacement ⟨0, 2⟩).toNode]).2

theorem mem_of_entry_replaced {k : Key} {e : Entry} (he : replaced.entry? k = some e) :
    k = ⟨1, 1⟩ ∨ k = ⟨0, 2⟩ :=
  List.mem_pair.1 (((Graph.history_replay _).sound.mem_order_iff k).2 (Graph.live_of_entry he))

theorem builtFrom_replaced : replaced.BuiltFrom replacement := by
  intro k e he
  obtain rfl | rfl := mem_of_entry_replaced he <;>
  · obtain rfl := Option.some.inj he
    rfl

theorem size_replaced {p : Port} {o : Outlet} (ho : replaced.outlet p = .ok o) :
    o.size.getD 0 ≤ 3 := by
  obtain ⟨e, he, hi⟩ := Graph.outlet_eq_ok_iff.1 ho
  have hmem := List.mem_of_getElem? hi
  obtain hk | hk := mem_of_entry_replaced he <;>
  · rw [hk] at he
    obtain rfl := Option.some.inj he
    obtain rfl := List.mem_singleton.1 hmem
    decide

/-- Spans that remember other sizes have a text, and so has the outlet without a size. -/
theorem parse_render_replaced :
    (∃ text,
      render replaced ⟨[⟨⟨⟨0, 2⟩, 0⟩, .boolean, 1, 2, 2, true⟩, ⟨⟨⟨0, 2⟩, 0⟩, .boolean, 0, 0, 0, false⟩]⟩ =
        .ok text ∧
      parse replaced text =
        .ok ⟨[⟨⟨⟨0, 2⟩, 0⟩, .boolean, 1, 2, 3, true⟩, ⟨⟨⟨0, 2⟩, 0⟩, .boolean, 0, 3, 3, false⟩]⟩) ∧
    ∃ text, render replaced ⟨[⟨⟨⟨1, 1⟩, 0⟩, .boolean, 0, 0, 0, false⟩]⟩ = .ok text ∧
      parse replaced text = .ok ⟨[⟨⟨⟨1, 1⟩, 0⟩, .boolean, 0, 0, 0, false⟩]⟩ := by
  obtain ⟨hresolve, hparse⟩ := parse_render (Graph.history_replay _) builtFrom_replaced
    fun p o ho => (size_replaced ho).trans_lt (by decide)
  exact ⟨hresolve _ _ (by unfold Span.Tracks; decide) (by simp) rfl, hparse " 1 . output" _ (by cbv)⟩

end Main

end Reference

end Dataflow
