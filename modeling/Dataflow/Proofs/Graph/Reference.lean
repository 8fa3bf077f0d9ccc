import Dataflow.Graph.Reference
import Dataflow.Proofs.Graph.History

/-!
# The language of references

The grammar of references as a relation between tokens and phrases, and the meaning of a phrase as
a relation to the span it stands for. Parsing a text finds its meaning exactly when it has one.
-/

namespace Dataflow.Reference

section Tokens

inductive Tokenizes : List Char → List Token → Prop
  | nil : Tokenizes [] []
  | blank {c : Char} {cs : List Char} {ts : List Token} :
      Text.isBlank c = true → Tokenizes cs ts → Tokenizes (c :: cs) ts
  | delimiter {c : Char} {cs : List Char} {ts : List Token} :
      isDelimiter c = true → Tokenizes cs ts → Tokenizes (c :: cs) (.delimiter c :: ts)
  | word {w cs : List Char} {ts : List Token} :
      w ≠ [] → (∀ c ∈ w, isTokenChar c = true) →
      (∀ c, cs.head? = some c → isTokenChar c = false) →
      Tokenizes cs ts → Tokenizes (w ++ cs) (.word (String.ofList w) :: ts)

theorem isDelimiter_eq_false_of_isBlank {c : Char} (h : Text.isBlank c = true) :
    isDelimiter c = false := by
  simp only [isDelimiter, delimiters, List.contains_eq_mem, decide_eq_false_iff_not,
    List.mem_cons, List.not_mem_nil, or_false]
  rintro (rfl | rfl | rfl | rfl | rfl | rfl | rfl) <;> revert h <;> decide

theorem isTokenChar_iff {c : Char} :
    isTokenChar c = true ↔ isDelimiter c = false ∧ Text.isBlank c = false := by
  simp [isTokenChar, and_comm]

variable {c : Char} {acc cs : List Char}

theorem tokensFrom_delimiter (h : isDelimiter c = true) :
    tokensFrom acc (c :: cs) = endWord acc (.delimiter c :: tokensFrom [] cs) := by
  rw [tokensFrom, if_pos h]

theorem tokensFrom_blank (h : Text.isBlank c = true) :
    tokensFrom acc (c :: cs) = endWord acc (tokensFrom [] cs) := by
  rw [tokensFrom, if_neg (by simp [isDelimiter_eq_false_of_isBlank h]), if_pos h]

theorem tokensFrom_append {w : List Char} (h : ∀ c ∈ w, isTokenChar c = true) :
    tokensFrom acc (w ++ cs) = tokensFrom (w.reverse ++ acc) cs := by
  induction w generalizing acc with
  | nil => rfl
  | cons c w ih =>
      obtain ⟨hd, hb⟩ := isTokenChar_iff.1 (h c (by simp))
      rw [List.cons_append, tokensFrom, if_neg (by simp [hd]), if_neg (by simp [hb]),
        ih fun c hc => h c (by simp [hc])]
      simp

/-- A word ends before anything that is no part of a word. -/
theorem tokensFrom_of_end (h : ∀ c, cs.head? = some c → isTokenChar c = false) :
    tokensFrom acc cs = endWord acc (tokensFrom [] cs) := by
  cases cs with
  | nil => rfl
  | cons c cs =>
      have hc : isDelimiter c = true ∨ Text.isBlank c = true := by
        simpa [isTokenChar, or_comm, or_iff_not_imp_right] using h c rfl
      rcases hc with hc | hc
      · rw [tokensFrom_delimiter hc, tokensFrom_delimiter hc]
        rfl
      · rw [tokensFrom_blank hc, tokensFrom_blank hc]
        rfl

theorem tokenizes_endWord (hacc : ∀ c ∈ acc, isTokenChar c = true) {ts : List Token}
    (h : ∀ c, cs.head? = some c → isTokenChar c = false) (hts : Tokenizes cs ts) :
    Tokenizes (acc.reverse ++ cs) (endWord acc ts) := by
  cases acc with
  | nil => exact hts
  | cons c acc => exact .word (by simp) (by simpa [or_comm] using hacc) h hts

theorem tokenizes_tokensFrom (cs : List Char) (hacc : ∀ c ∈ acc, isTokenChar c = true) :
    Tokenizes (acc.reverse ++ cs) (tokensFrom acc cs) := by
  induction cs generalizing acc with
  | nil => exact tokenizes_endWord hacc (by simp) .nil
  | cons c cs ih =>
      have hrest : Tokenizes cs (tokensFrom [] cs) := @ih [] (by simp)
      by_cases hd : isDelimiter c = true
      · rw [tokensFrom_delimiter hd]
        exact tokenizes_endWord hacc (by simp [isTokenChar, hd]) (.delimiter hd hrest)
      by_cases hb : Text.isBlank c = true
      · rw [tokensFrom_blank hb]
        exact tokenizes_endWord hacc (by simp [isTokenChar, hb]) (.blank hb hrest)
      · have hc : isTokenChar c = true := 
          isTokenChar_iff.2 ⟨eq_false_of_ne_true hd, eq_false_of_ne_true hb⟩
        have := @ih (c :: acc) (by simpa [hc] using hacc)
        rw [tokensFrom, if_neg hd, if_neg hb]
        simpa using this

theorem tokens_of_tokenizes {ts : List Token} (h : Tokenizes cs ts) : tokensFrom [] cs = ts := by
  induction h with
  | nil => rfl
  | blank hb _ ih =>
      rw [tokensFrom_blank hb, ih]
      rfl
  | delimiter hd _ ih =>
      rw [tokensFrom_delimiter hd, ih]
      rfl
  | @word w cs ts hne hw hend _ ih =>
      rw [tokensFrom_append hw, tokensFrom_of_end hend, ih]
      simp [endWord, hne]

theorem tokenizes_iff {text : String} {ts : List Token} :
    Tokenizes text.toList ts ↔ tokens text = ts :=
  ⟨tokens_of_tokenizes, fun h => h ▸ @tokenizes_tokensFrom [] _ (by simp)⟩

end Tokens

section Grammar

/-- A numeral, that is decimal digits after an optional plus sign, with its value. -/
def IsIndex (text : String) (n : Nat) : Prop :=
  ∃ digits, (text.toList = digits ∨ text.toList = '+' :: digits) ∧ digits ≠ [] ∧
    (∀ c ∈ digits, c.isDigit = true) ∧
    n = Nat.ofDigits 10 (digits.reverse.map fun c => c.toNat - '0'.toNat) ∧ n < 2 ^ 64

theorem foldl_digits (digits : List Char) :
    digits.foldl (fun n c => 10 * n + (c.toNat - '0'.toNat)) 0 =
      Nat.ofDigits 10 (digits.reverse.map fun c => c.toNat - '0'.toNat) := by
  simp [Nat.ofDigits_eq_foldr, List.foldl_map, Nat.add_comm]

/-- The digits of a text are what is left without a plus sign at the front. -/
theorem index?_eq {text : String} {digits : List Char}
    (h : text.toList = digits ∧ digits.head? ≠ some '+' ∨ text.toList = '+' :: digits) :
    index? text = if digits.isEmpty || !digits.all Char.isDigit then none else
      if Nat.ofDigits 10 (digits.reverse.map fun c => c.toNat - '0'.toNat) < 2 ^ 64 then
        some (Nat.ofDigits 10 (digits.reverse.map fun c => c.toNat - '0'.toNat)) else none := by
  rw [← foldl_digits, index?]
  rcases h with ⟨h, hhead⟩ | h
  · rw [h]
    cases digits with
    | nil => rfl
    | cons c cs =>
        split
        · next heq => simp [(List.cons.inj heq).1] at hhead
        · rfl
  · rw [h]
    rfl

theorem index?_eq_some_iff {text : String} {n : Nat} : index? text = some n ↔ IsIndex text n := by
  constructor
  · intro hn
    obtain ⟨digits, h⟩ : ∃ digits, text.toList = digits ∧ digits.head? ≠ some '+' ∨
        text.toList = '+' :: digits := by
      cases htext : text.toList with
      | nil => exact ⟨[], by simp⟩
      | cons c cs =>
          by_cases hc : c = '+'
          · exact ⟨cs, .inr (by rw [hc])⟩
          · exact ⟨c :: cs, .inl (by simpa using hc)⟩
    rw [index?_eq h] at hn
    split at hn
    · cases hn
    · next hdigits =>
        simp only [Bool.or_eq_true, Bool.not_eq_true', not_or, Bool.not_eq_false,
          List.isEmpty_iff, List.all_eq_true] at hdigits
        split at hn
        · next hlt =>
            obtain rfl := Option.some.inj hn
            exact ⟨digits, h.imp_left And.left, hdigits.1, hdigits.2, rfl, hlt⟩
        · cases hn
  · rintro ⟨digits, h, hne, hall, rfl, hlt⟩
    have hhead : digits.head? ≠ some '+' := fun h =>
      absurd (hall '+' (List.mem_of_mem_head? h)) (by decide)
    rw [index?_eq (h.imp_left fun h => ⟨h, hhead⟩), if_neg, if_pos hlt]
    simpa [hne] using hall

inductive Selector
  | whole
  | single (index : Nat)
  | slice (start stop : Nat)

structure Phrase where
  node : String
  port : String
  selector : Selector

inductive DerivesRange : List Token → Phrase → Prop
  | whole (node port : String) :
      DerivesRange [.word node, .delimiter '.', .word port] ⟨node, port, .whole⟩
  | single (node port : String) {text : String} {index : Nat} (hindex : IsIndex text index) :
      DerivesRange [.word node, .delimiter '.', .word port, .delimiter '[', .word text,
        .delimiter ']'] ⟨node, port, .single index⟩
  | slice (node port : String) {first last : String} {start stop : Nat}
      (hstart : IsIndex first start) (hstop : IsIndex last stop) :
      DerivesRange [.word node, .delimiter '.', .word port, .delimiter '[', .word first,
        .delimiter ':', .word last, .delimiter ']'] ⟨node, port, .slice start stop⟩

inductive DerivesMore : List Token → List Phrase → Prop
  | nil : DerivesMore [] []
  | cons {ts us : List Token} {p : Phrase} {ps : List Phrase} :
      DerivesRange ts p → DerivesMore us ps →
      DerivesMore (.delimiter ',' :: (ts ++ us)) (p :: ps)

inductive Derives : List Token → List Phrase → Prop
  | range {ts : List Token} {p : Phrase} : DerivesRange ts p → Derives ts [p]
  | braces {ts us : List Token} {p : Phrase} {ps : List Phrase} :
      DerivesRange ts p → DerivesMore us ps →
      Derives (.delimiter '{' :: (ts ++ us ++ [.delimiter '}'])) (p :: ps)

end Grammar

section Meaning

/-- The outlet of that name at the node of that name. Of several outlets of one name it is the
first. -/
def Names (g : Graph) (node port : String) (o : Outlet) : Prop :=
  ∃ id e, id.text = node ∧ g.find? id = some e ∧ e.outlets.find? (·.name == port) = some o

/-- After any history these are the outlets of the nodes that are there. -/
theorem names_iff_of_history {log : List Key} {g : Graph} (h : Graph.History log g)
    {node port : String} {o : Outlet} :
    Names g node port o ↔ ∃ k e, g.entry? k = some e ∧ e.id.text = node ∧
      e.outlets.find? (·.name == port) = some o := by
  have hids := h.sound.ids
  constructor
  · rintro ⟨id, e, rfl, he, ho⟩
    obtain ⟨k, hk, hek⟩ := Option.bind_eq_some_iff.1 he
    obtain ⟨e', he', rfl⟩ := (hids id k).1 hk
    obtain rfl := Option.some.inj (hek.symm.trans he')
    exact ⟨k, e, hek, rfl, ho⟩
  · rintro ⟨k, e, he, rfl, ho⟩
    refine ⟨e.id, e, rfl, ?_, ho⟩
    rw [Graph.find?, (hids e.id k).2 ⟨e, he, rfl⟩, Option.bind_some, he]

theorem Names.exists_outlet {g : Graph} {node port : String} {o : Outlet}
    (h : Names g node port o) : ∃ p, g.outlet p = .ok o := by
  obtain ⟨id, e, -, he, ho⟩ := h
  obtain ⟨k, -, hk⟩ := Option.bind_eq_some_iff.1 he
  obtain ⟨i, hi, hio⟩ := List.getElem_of_mem (List.mem_of_find?_eq_some ho)
  exact ⟨⟨k, i⟩, Graph.outlet_eq_ok_iff.2 ⟨e, hk, hio ▸ List.getElem?_eq_getElem hi⟩⟩

/-- What is picked from an outlet; an index or a slice has to lie inside of it. -/
inductive Selector.Denotes (o : Outlet) : Selector → Span → Prop
  | whole : Denotes o .whole (.whole o)
  | single {index size : Nat} : o.size = some size → index < size →
      Denotes o (.single index) ⟨o.port, o.elemType, index, 1, size, true⟩
  | slice {start stop size : Nat} : o.size = some size → start ≤ stop → stop ≤ size →
      Denotes o (.slice start stop) ⟨o.port, o.elemType, start, (stop - start), size, true⟩

def Phrase.Denotes (g : Graph) (p : Phrase) (s : Span) : Prop :=
  ∃ o, Names g p.node p.port o ∧ p.selector.Denotes o s

/-- A text of the language and the spans it stands for, all of them of one element type. -/
def Means (g : Graph) (text : String) (s : Selection) : Prop :=
  ∃ ts ps, Tokenizes text.toList ts ∧ Derives ts ps ∧
    List.Forall₂ (Phrase.Denotes g) ps s.spans ∧ s.Uniform

end Meaning

section Readers

variable {α β : Type} {i i' : Input} {a : α}

def Gives (m : Read α) (i : Input) (a : α) (i' : Input) : Prop := m.run i = .ok (a, i')

@[simp] theorem gives_pure {b : α} : Gives (pure b) i a i' ↔ b = a ∧ i = i' := by
  change Except.ok (b, i) = .ok (a, i') ↔ _
  simp

@[simp] theorem gives_throw {f : Fault} : ¬ Gives (throw f : Read α) i a i' := by
  change ¬ (Except.error f = Except.ok (a, i'))
  simp

@[simp] theorem gives_bind {m : Read β} {f : β → Read α} :
    Gives (m >>= f) i a i' ↔ ∃ b j, Gives m i b j ∧ Gives (f b) j a i' := by
  unfold Gives
  rw [StateT.run_bind, bind_eq_ok_iff]
  simp

@[simp] theorem gives_map {m : Read β} {f : β → α} :
    Gives (f <$> m) i a i' ↔ ∃ b, Gives m i b i' ∧ f b = a := by
  rw [map_eq_pure_bind, gives_bind]
  simp [and_comm]

@[simp] theorem gives_get {j : Input} : Gives get i j i' ↔ j = i ∧ i = i' := by
  change Except.ok (i, i) = .ok (j, i') ↔ _
  simp [eq_comm]

@[simp] theorem gives_lift {x : Except Fault α} :
    Gives (liftM x) i a i' ↔ x = .ok a ∧ i = i' := by
  cases x with
  | error f =>
      change Except.error f = .ok (a, i') ↔ _
      simp
  | ok b =>
      change Except.ok (b, i) = .ok (a, i') ↔ _
      simp

@[simp] theorem gives_skip {u : Unit} :
    Gives skip i u i' ↔ (⟨i.rest.tail, i.position + 1⟩ : Input) = i' := by
  change Except.ok (_, _) = .ok (u, i') ↔ _
  simp

@[simp] theorem gives_unexpected {w : Wanted} : ¬ Gives (unexpected w : Read α) i a i' := by
  simp [unexpected]

@[simp] theorem gives_nextIs {c : Char} {b : Bool} :
    Gives (nextIs c) i b i' ↔ (i.rest.head? == some (.delimiter c)) = b ∧ i = i' := by
  simp [nextIs, and_comm]

@[simp] theorem gives_expect {c : Char} {u : Unit} :
    Gives (expect c) i u i' ↔
      ∃ rest, i.rest = .delimiter c :: rest ∧ (⟨rest, i.position + 1⟩ : Input) = i' := by
  obtain ⟨ts, n⟩ := i
  unfold expect
  by_cases h : ts.head? = some (.delimiter c)
  · obtain ⟨rest, rfl⟩ : ∃ rest, ts = .delimiter c :: rest := List.head?_eq_some_iff.1 h
    simp
  · have hb : (ts.head? == some (.delimiter c)) = false := by simpa using h
    have hne : ∀ rest, ts ≠ .delimiter c :: rest := fun rest hr => h (by rw [hr]; rfl)
    simp [hb, hne]

theorem gives_readWord {w : Wanted} {text : String} :
    Gives (readWord w) i text i' ↔
      ∃ rest, i.rest = .word text :: rest ∧ (⟨rest, i.position + 1⟩ : Input) = i' := by
  obtain ⟨ts, n⟩ := i
  unfold readWord
  rcases ts with _ | ⟨_ | _, rest⟩ <;> simp [and_comm]

theorem gives_readIndex {n : Nat} :
    Gives readIndex i n i' ↔ ∃ text rest, i.rest = .word text :: rest ∧ IsIndex text n ∧
      (⟨rest, i.position + 1⟩ : Input) = i' := by
  obtain ⟨ts, p⟩ := i
  unfold readIndex
  rcases ts with _ | ⟨_ | text, rest⟩
  · simp
  · simp
  · cases hn : index? text with
    | none =>
        have : ¬ IsIndex text n := fun h => by simp [index?_eq_some_iff.2 h] at hn
        simp [hn, this]
    | some m => simp [hn, ← index?_eq_some_iff, and_comm]

theorem ofToken_eq_ok_iff {token : String} {id : NodeId} :
    NodeId.ofToken token = .ok id ↔ id.text = token := by
  obtain ⟨text, htext⟩ := id
  unfold NodeId.ofToken
  split
  · next h => simp [eq_comm]
  · next h =>
      refine iff_of_false (by simp) ?_
      rintro rfl
      exact h htext

theorem outletNamed_eq_ok_iff {e : Entry} {name : String} {o : Outlet} :
    e.outletNamed name = .ok o ↔ e.outlets.find? (·.name == name) = some o := by
  unfold Entry.outletNamed
  cases e.outlets.find? (·.name == name) with
  | none => simp
  | some o' => simp

theorem findOutlet_eq_ok_iff {g : Graph} {node port : String} {o : Outlet} :
    findOutlet g node port = .ok o ↔ Names g node port o := by
  have hid : ∀ id, (NodeId.ofToken node).toOption = some id ↔ id.text = node := by
    intro id
    rw [toOption_eq_some_iff, ofToken_eq_ok_iff]
  unfold findOutlet Names
  cases he : (NodeId.ofToken node).toOption.bind g.find? with
  | none =>
      refine iff_of_false (by simp [throw, throwThe, MonadExceptOf.throw]) ?_
      rintro ⟨id, e, hid', he', -⟩
      rw [(hid id).2 hid', Option.bind_some, he'] at he
      cases he
  | some e =>
      obtain ⟨id, hid', he'⟩ := Option.bind_eq_some_iff.1 he
      rw [hid] at hid'
      constructor
      · intro h
        exact ⟨id, e, hid', he', outletNamed_eq_ok_iff.1 h⟩
      · rintro ⟨id₂, e₂, hid₂, he₂, ho⟩
        obtain rfl := Option.some.inj (((hid id).2 hid').symm.trans ((hid id₂).2 hid₂))
        obtain rfl := Option.some.inj (he'.symm.trans he₂)
        exact outletNamed_eq_ok_iff.2 ho

theorem part_eq_ok_iff {o : Outlet} {start count : Nat} {s : Span} :
    Span.part o start count = .ok s ↔ ∃ size, o.size = some size ∧ start + count ≤ size ∧
      (⟨o.port, o.elemType, start, count, size, true⟩ : Span) = s := by
  unfold Span.part
  cases o.size with
  | none => simp
  | some size =>
      by_cases h : start + count ≤ size
      · simp [h]
      · simp [h]

end Readers

section Ranges

variable {g : Graph}

/-- A computation that goes on only where it does not refuse. -/
theorem gives_refuse {α β : Type} {i i' : Input} {a : α} {c : Prop} [Decidable c] {f : Fault}
    {k : β → Read α} {m : Read α} :
    Gives (if c then throw f >>= k else m) i a i' ↔ ¬ c ∧ Gives m i a i' := by
  by_cases hc : c
  · simp [hc]
  · simp [hc]

/-- What is read as a range is one, and it means the span that reading gives. -/
theorem derives_of_readRange {i i' : Input} {s : Span} (h : Gives (readRange g) i s i') :
    ∃ ts p, i.rest = ts ++ i'.rest ∧ DerivesRange ts p ∧ p.Denotes g s := by
  obtain ⟨ts, n⟩ := i
  unfold readRange at h
  simp only [gives_bind, gives_readWord, gives_expect, gives_nextIs, gives_lift,
    findOutlet_eq_ok_iff] at h
  obtain ⟨node, _, ⟨_, rfl, rfl⟩, _, _, ⟨_, rfl, rfl⟩, port, _, ⟨rest, rfl, rfl⟩, o, _,
    ⟨ho, rfl⟩, b, _, ⟨hb, rfl⟩, h⟩ := h
  cases b with
  | false =>
      obtain ⟨rfl, rfl⟩ := gives_pure.1 h
      exact ⟨_, _, rfl, .whole node port, o, ho, .whole⟩
  | true =>
      obtain ⟨rest, rfl⟩ : ∃ ts, rest = .delimiter '[' :: ts :=
        List.head?_eq_some_iff.1 (by simpa using hb)
      simp only [gives_bind, gives_readIndex, gives_nextIs, gives_skip, if_true] at h
      obtain ⟨_, _, rfl, start, _, ⟨_, rest, rfl, hstart, rfl⟩, b, _, ⟨hb, rfl⟩, h⟩ := h
      cases b with
      | false =>
          simp only [Bool.false_eq_true, if_false, gives_bind, gives_lift, gives_expect, Span.single,
            part_eq_ok_iff, gives_pure] at h
          obtain ⟨_, _, ⟨⟨size, hsize, hle, rfl⟩, rfl⟩, _, _, ⟨_, rfl, rfl⟩, rfl, rfl⟩ := h
          exact ⟨_, _, rfl, .single node port hstart, o, ho, .single hsize hle⟩
      | true =>
          obtain ⟨rest, rfl⟩ : ∃ ts, rest = .delimiter ':' :: ts :=
            List.head?_eq_some_iff.1 (by simpa using hb)
          simp only [if_true, gives_bind, gives_skip, gives_readIndex, gives_refuse, gives_lift,
            part_eq_ok_iff, gives_expect, gives_pure] at h
          obtain ⟨_, _, rfl, stop, _, ⟨_, _, rfl, hstop, rfl⟩, hle, _, _,
            ⟨⟨size, hsize, hlt, rfl⟩, rfl⟩, _, _, ⟨_, rfl, rfl⟩, rfl, rfl⟩ := h
          exact ⟨_, _, rfl, .slice node port hstart hstop, o, ho,
            .slice hsize (Nat.le_of_not_lt hle) (by omega)⟩

/-- A range is read up to its end, unless what follows could belong to it. -/
theorem readRange_of_derives {ts rest : List Token} {p : Phrase} {s : Span}
    (h : DerivesRange ts p) (hs : p.Denotes g s) (hrest : rest.head? ≠ some (.delimiter '['))
    (n : Nat) : Gives (readRange g) ⟨ts ++ rest, n⟩ s ⟨rest, n + ts.length⟩ := by
  obtain ⟨o, ho, hsel⟩ := hs
  cases h with
  | whole node port =>
      cases hsel
      simp only [readRange, List.cons_append, List.nil_append, gives_bind, gives_readWord,
        gives_expect, gives_nextIs, gives_lift, findOutlet_eq_ok_iff]
      refine ⟨node, _, ⟨_, rfl, rfl⟩, (), _, ⟨_, rfl, rfl⟩, port, _, ⟨_, rfl, rfl⟩, o, _,
        ⟨ho, rfl⟩, false, _, ⟨by simpa using hrest, rfl⟩, gives_pure.2 ⟨rfl, rfl⟩⟩
  | single node port hindex =>
      cases hsel with
      | single hsize hlt =>
          simp only [readRange, List.cons_append, List.nil_append, gives_bind, gives_readWord,
            gives_expect, gives_nextIs, gives_lift, findOutlet_eq_ok_iff]
          refine ⟨node, _, ⟨_, rfl, rfl⟩, (), _, ⟨_, rfl, rfl⟩, port, _, ⟨_, rfl, rfl⟩, o, _,
            ⟨ho, rfl⟩, true, _, ⟨by simp, rfl⟩, ?_⟩
          simp only [if_true, gives_bind, gives_skip, gives_readIndex, gives_nextIs]
          refine ⟨(), _, rfl, _, _, ⟨_, _, rfl, hindex, rfl⟩, false, _, ⟨by simp, rfl⟩, ?_⟩
          simp only [Bool.false_eq_true, if_false, gives_bind, gives_lift, gives_expect,
            Span.single, part_eq_ok_iff, gives_pure]
          exact ⟨_, _, ⟨⟨_, hsize, hlt, rfl⟩, rfl⟩, (), _, ⟨_, rfl, rfl⟩, rfl, rfl⟩
  | slice node port hstart hstop =>
      cases hsel with
      | slice hsize hle hlt =>
          simp only [readRange, List.cons_append, List.nil_append, gives_bind, gives_readWord,
            gives_expect, gives_nextIs, gives_lift, findOutlet_eq_ok_iff]
          refine ⟨node, _, ⟨_, rfl, rfl⟩, (), _, ⟨_, rfl, rfl⟩, port, _, ⟨_, rfl, rfl⟩, o, _,
            ⟨ho, rfl⟩, true, _, ⟨by simp, rfl⟩, ?_⟩
          simp only [if_true, gives_bind, gives_skip, gives_readIndex, gives_nextIs]
          refine ⟨(), _, rfl, _, _, ⟨_, _, rfl, hstart, rfl⟩, true, _, ⟨by simp, rfl⟩, ?_⟩
          simp only [if_true, gives_bind, gives_skip, gives_readIndex, gives_refuse, gives_lift,
            part_eq_ok_iff, gives_expect, gives_pure]
          exact ⟨(), _, rfl, _, _, ⟨_, _, rfl, hstop, rfl⟩, Nat.not_lt.2 hle, _, _,
            ⟨⟨_, hsize, by omega, rfl⟩, rfl⟩, (), _, ⟨_, rfl, rfl⟩, rfl, rfl⟩

theorem derives_of_readMore {fuel : Nat} {i i' : Input} {ss : List Span}
    (h : Gives (readMore g fuel) i ss i') :
    ∃ ts ps, i.rest = ts ++ i'.rest ∧ DerivesMore ts ps ∧
      List.Forall₂ (Phrase.Denotes g) ps ss := by
  induction fuel generalizing i ss with
  | zero =>
      obtain ⟨rfl, rfl⟩ := gives_pure.1 h
      exact ⟨[], [], rfl, .nil, .nil⟩
  | succ fuel ih =>
      simp only [readMore, gives_bind, gives_nextIs] at h
      obtain ⟨b, _, ⟨hb, rfl⟩, h⟩ := h
      cases b with
      | false =>
          obtain ⟨rfl, rfl⟩ := gives_pure.1 h
          exact ⟨[], [], rfl, .nil, .nil⟩
      | true =>
          obtain ⟨rest, hrest⟩ : ∃ ts, i.rest = .delimiter ',' :: ts :=
            List.head?_eq_some_iff.1 (by simpa using hb)
          simp only [if_true, gives_bind, gives_skip, gives_pure] at h
          obtain ⟨_, _, rfl, s, j, hs, ss, _, hss, rfl, rfl⟩ := h
          obtain ⟨ts, p, hts, hp, hps⟩ := derives_of_readRange hs
          obtain ⟨us, ps, hus, hmore, hall⟩ := ih hss
          refine ⟨_, _, ?_, .cons hp hmore, .cons hps hall⟩
          rw [hrest] at hts ⊢
          simp only [List.tail_cons] at hts
          rw [hts, hus]
          simp

/-- The ranges up to the closing brace are read if there is fuel for all of them. -/
theorem readMore_of_derives {ts rest : List Token} {ps : List Phrase} {ss : List Span}
    (h : DerivesMore ts ps) (hs : List.Forall₂ (Phrase.Denotes g) ps ss)
    {fuel : Nat} (hfuel : ts.length ≤ fuel) (n : Nat) :
    Gives (readMore g fuel) ⟨ts ++ .delimiter '}' :: rest, n⟩ ss
      ⟨.delimiter '}' :: rest, n + ts.length⟩ := by
  induction h generalizing fuel n ss with
  | nil =>
      cases hs
      cases fuel with
      | zero => exact gives_pure.2 ⟨rfl, rfl⟩
      | succ fuel =>
          simp only [readMore, gives_bind, gives_nextIs]
          exact ⟨false, _, ⟨by simp, rfl⟩, gives_pure.2 ⟨rfl, rfl⟩⟩
  | @cons ts us p ps hp hmore ih =>
      cases hs with
      | @cons _ s _ ss hps hss =>
          obtain ⟨fuel, rfl⟩ : ∃ m, fuel = m + 1 := Nat.exists_eq_succ_of_ne_zero (by
            simp only [List.length_cons] at hfuel
            omega)
          simp only [List.length_cons, List.length_append] at hfuel
          simp only [readMore, gives_bind, gives_nextIs]
          refine ⟨true, _, ⟨by simp, rfl⟩, ?_⟩
          simp only [if_true, gives_bind, gives_skip, gives_pure]
          have hnext : (us ++ .delimiter '}' :: rest).head? ≠ some (.delimiter '[') := by
            cases hmore <;> simp
          have hrange : Gives (readRange g)
              ⟨(.delimiter ',' :: (ts ++ us) ++ .delimiter '}' :: rest).tail, n + 1⟩ s
              ⟨us ++ .delimiter '}' :: rest, n + 1 + ts.length⟩ := by
            simpa using readRange_of_derives hp hps hnext (n + 1)
          have hmore := @ih ss hss fuel (by omega) (n + 1 + ts.length)
          refine ⟨(), _, rfl, s, _, hrange, ss, _, hmore, rfl, ?_⟩
          simp only [List.length_cons, List.length_append, Input.mk.injEq, true_and]
          omega

end Ranges

section Parsing

variable {g : Graph} {text : String} {s : Selection}

theorem means_of_readElements {i i' : Input} (hi : i.rest = tokens text)
    (h : Gives (readElements g) i s i') : Means g text s := by
  simp only [readElements, gives_bind, gives_nextIs] at h
  obtain ⟨b, _, ⟨hb, rfl⟩, h⟩ := h
  refine ⟨tokens text, ?_⟩
  rw [tokenizes_iff, ← hi]
  cases b with
  | false =>
      simp only [Bool.false_eq_true, if_false, gives_bind, gives_map, gives_get] at h
      obtain ⟨_, j, ⟨span, hspan, rfl⟩, _, _, ⟨rfl, rfl⟩, h⟩ := h
      obtain ⟨ts, p, hts, hp, hs⟩ := derives_of_readRange hspan
      split at h
      · next hend =>
          obtain ⟨rfl, rfl⟩ := gives_pure.1 h
          rw [hend, List.append_nil] at hts
          refine ⟨[p], rfl, hts ▸ .range hp, .cons hs .nil, ?_⟩
          simp [Selection.Uniform, Selection.ofSpan]
      · exact (gives_throw h).elim
  | true =>
      obtain ⟨rest, hrest⟩ : ∃ ts, i.rest = .delimiter '{' :: ts :=
        List.head?_eq_some_iff.1 (by simpa using hb)
      simp only [if_true, gives_bind, gives_skip, gives_get, gives_expect, gives_lift,
        Selection.ofSpans_eq_ok_iff] at h
      obtain ⟨_, _, rfl, first, j, hfirst, _, _, ⟨rfl, rfl⟩, more, k, hmore, _, _,
        ⟨last, hlast, rfl⟩, s, _, ⟨⟨hspans, hu⟩, rfl⟩, _, _, ⟨rfl, rfl⟩, h⟩ := h
      split at h
      · next hend =>
          obtain ⟨rfl, rfl⟩ := gives_pure.1 h
          obtain rfl : last = [] := hend
          obtain ⟨ts, p, hts, hp, hs⟩ := derives_of_readRange hfirst
          obtain ⟨us, ps, hus, hps, hall⟩ := derives_of_readMore hmore
          refine ⟨p :: ps, rfl, ?_, hspans ▸ .cons hs hall, hu⟩
          rw [hrest, List.tail_cons] at hts
          obtain rfl : rest = ts ++ _ := hts
          rw [hrest, hus, hlast, ← List.append_assoc]
          exact .braces hp hps
      · exact (gives_throw h).elim

theorem readElements_of_means (h : Means g text s) :
    ∃ i', Gives (readElements g) { rest := tokens text } s i' := by
  obtain ⟨ts, ps, hts, hderives, hall, hu⟩ := h
  obtain rfl := tokenizes_iff.1 hts
  obtain ⟨spans⟩ := s
  simp only [readElements, gives_bind, gives_nextIs]
  generalize tokens text = ts at hderives
  cases hderives with
  | @range _ p hp =>
      obtain ⟨span, _, hs, hnil, rfl⟩ := List.forall₂_cons_left_iff.1 hall
      obtain rfl := List.forall₂_nil_left_iff.1 hnil
      have hrange : Gives (readRange g) ⟨ts, 0⟩ span ⟨[], 0 + ts.length⟩ := by
        simpa using readRange_of_derives hp hs (List.head?_nil.trans_ne (by simp)) 0
      have hfirst : (ts.head? == some (.delimiter '{')) = false := by
        cases hp <;> simp
      refine ⟨⟨[], 0 + ts.length⟩, false, _, ⟨hfirst, rfl⟩, ?_⟩
      simp only [Bool.false_eq_true, if_false, gives_bind, gives_map, gives_get]
      exact ⟨_, _, ⟨span, hrange, rfl⟩, _, _, ⟨rfl, rfl⟩, gives_pure.2 ⟨rfl, rfl⟩⟩
  | @braces ts us p ps hp hps =>
      obtain ⟨first, more, hs, hmore, rfl⟩ := List.forall₂_cons_left_iff.1 hall
      have hnext : (us ++ [Token.delimiter '}']).head? ≠ some (.delimiter '[') := by
        cases hps <;> simp
      have hrange : Gives (readRange g)
          ⟨(.delimiter '{' :: (ts ++ us ++ [.delimiter '}'])).tail, 0 + 1⟩ first
          ⟨us ++ [.delimiter '}'], 0 + 1 + ts.length⟩ := by
        simpa using readRange_of_derives hp hs hnext (0 + 1)
      have hrest : Gives (readMore g (us ++ [Token.delimiter '}']).length)
          ⟨us ++ [.delimiter '}'], 0 + 1 + ts.length⟩ more
          ⟨[.delimiter '}'], 0 + 1 + ts.length + us.length⟩ :=
        readMore_of_derives hps hmore (by simp) _
      refine ⟨⟨[], 0 + 1 + ts.length + us.length + 1⟩, true, _, ⟨by simp, rfl⟩, ?_⟩
      simp only [if_true, gives_bind, gives_skip, gives_get, gives_expect, gives_lift,
        Selection.ofSpans_eq_ok_iff]
      refine ⟨(), _, rfl, first, _, hrange, _, _, ⟨rfl, rfl⟩, more, _, hrest, (), _,
        ⟨[], rfl, rfl⟩, _, _, ⟨⟨rfl, hu⟩, rfl⟩, _, _, ⟨rfl, rfl⟩, ?_⟩
      exact gives_pure.2 ⟨rfl, rfl⟩

theorem parse_eq_ok_iff : parse g text = .ok s ↔ Means g text s := by
  have hrun : parse g text = .ok s ↔
      ∃ i', Gives (readElements g) { rest := tokens text } s i' := by
    unfold parse Gives
    rw [StateT.run'_eq, map_eq_ok_iff]
    constructor
    · rintro ⟨⟨s, i'⟩, h, rfl⟩
      exact ⟨i', h⟩
    · rintro ⟨i', h⟩
      exact ⟨(s, i'), h, rfl⟩
  rw [hrun]
  exact ⟨fun ⟨_, h⟩ => means_of_readElements rfl h, readElements_of_means⟩

end Parsing

section Faults

variable {α β : Type}

def Reports (m : Read α) : Prop := ∀ i b, m.run i ≠ .error (.breach b)

theorem reports_pure (a : α) : Reports (pure a) := fun _ _ h => by cases h

theorem reports_get : Reports get := fun _ _ h => by cases h

theorem reports_skip : Reports skip := fun _ _ h => by cases h

theorem Reports.bind {m : Read β} {f : β → Read α} (hm : Reports m) (hf : ∀ b, Reports (f b)) :
    Reports (m >>= f) := by
  intro i b h
  rw [StateT.run_bind] at h
  rcases bind_eq_error_iff.1 h with h | ⟨⟨b', j⟩, -, h⟩
  · exact hm i b h
  · exact hf b' j b h

theorem reports_throw {f : Fault} (hf : ∀ b, f ≠ .breach b) : Reports (throw f : Read α) :=
  fun _ b h => hf b (Except.error.inj h)

theorem reports_lift {x : Except Fault α} (hx : ∀ b, x ≠ .error (.breach b)) :
    Reports (liftM x) := by
  intro i b h
  cases x with
  | error f => exact hx b (congrArg Except.error (Except.error.inj h))
  | ok a => cases h

theorem reports_unexpected (w : Wanted) : Reports (unexpected w : Read α) :=
  reports_get.bind fun _ => reports_throw (by simp)

theorem reports_nextIs (c : Char) : Reports (nextIs c) :=
  reports_get.bind fun _ => reports_pure _

theorem reports_expect (c : Char) : Reports (expect c) := by
  refine (reports_nextIs c).bind fun b => ?_
  split
  · exact reports_skip
  · exact reports_unexpected _

theorem reports_readWord (w : Wanted) : Reports (readWord w) := by
  refine reports_get.bind fun i => ?_
  split
  · exact reports_skip.bind fun _ => reports_pure _
  · exact reports_unexpected _

theorem reports_readIndex : Reports readIndex := by
  refine reports_get.bind fun i => ?_
  split
  · split
    · exact reports_skip.bind fun _ => reports_pure _
    · exact reports_unexpected _
  · exact reports_unexpected _

theorem reports_findOutlet (g : Graph) (node port : String) :
    Reports (liftM (findOutlet g node port)) := by
  refine reports_lift fun b h => ?_
  unfold findOutlet at h
  split at h
  · unfold Entry.outletNamed at h
    split at h <;> cases h
  · cases h

theorem reports_part (o : Outlet) (start count : Nat) :
    Reports (liftM (Span.part o start count)) := by
  refine reports_lift fun b h => ?_
  unfold Span.part at h
  split at h
  · cases h
  · split at h <;> cases h

theorem reports_readRange (g : Graph) : Reports (readRange g) := by
  have hclose (s : Span) : Reports (do expect ']'; return s) :=
    (reports_expect _).bind fun _ => reports_pure _
  refine (reports_readWord _).bind fun node => (reports_expect _).bind fun _ =>
    (reports_readWord _).bind fun port => (reports_findOutlet g node port).bind fun o =>
    (reports_nextIs _).bind fun b => ?_
  split
  · refine reports_skip.bind fun _ => reports_readIndex.bind fun start =>
      (reports_nextIs _).bind fun b => ?_
    split
    · refine reports_skip.bind fun _ => reports_readIndex.bind fun stop => ?_
      have hslice := (reports_part o start (stop - start)).bind hclose
      split
      · exact (reports_throw (by simp)).bind fun _ => hslice
      · exact hslice
    · exact (reports_part o start 1).bind hclose
  · exact reports_pure _

theorem reports_readMore (g : Graph) (fuel : Nat) : Reports (readMore g fuel) := by
  induction fuel with
  | zero => exact reports_pure _
  | succ fuel ih =>
      refine (reports_nextIs _).bind fun b => ?_
      split
      · exact reports_skip.bind fun _ => (reports_readRange g).bind fun _ =>
          ih.bind fun _ => reports_pure _
      · exact reports_pure _

theorem reports_readElements (g : Graph) : Reports (readElements g) := by
  have hspans (spans : List Span) : Reports (liftM (Selection.ofSpans spans)) := by
    refine reports_lift fun b h => ?_
    obtain ⟨_, _, h⟩ := Selection.eq_mismatch_of_ofSpans_eq_error h
    cases h
  refine (reports_nextIs _).bind fun b => ?_
  split
  · refine reports_skip.bind fun _ => (reports_readRange g).bind fun first =>
      reports_get.bind fun _ => (reports_readMore g _).bind fun more =>
      (reports_expect _).bind fun _ => (hspans _).bind fun s => reports_get.bind fun i => ?_
    split
    · exact reports_pure s
    · exact reports_throw (by simp)
  · refine ((reports_readRange g).bind fun span => reports_pure (Selection.ofSpan span)).bind
      fun s => reports_get.bind fun i => ?_
    split
    · exact reports_pure s
    · exact reports_throw (by simp)

end Faults

section Main

variable (g : Graph) (text : String)

/-- A text parses to the spans that it stands for, in their order, if it is of the language and
stands for any, and to a reported fault if not. -/
theorem parse_spec :
    (∀ s, parse g text = .ok s ↔ Means g text s) ∧
      ((∃ s, Means g text s) ∨
        ∃ f, parse g text = .error f ∧ (∀ b, f ≠ .breach b) ∧ ∀ s, ¬ Means g text s) := by
  refine ⟨fun s => parse_eq_ok_iff, ?_⟩
  cases hp : parse g text with
  | ok s => exact .inl ⟨s, parse_eq_ok_iff.1 hp⟩
  | error f =>
      refine .inr ⟨f, rfl, ?_, fun s hs => ?_⟩
      · rintro b rfl
        unfold parse at hp
        rw [StateT.run'_eq] at hp
        cases hr : (readElements g).run { rest := tokens text } with
        | ok r =>
            rw [hr] at hp
            cases hp
        | error f =>
            rw [hr] at hp
            obtain rfl := Except.error.inj hp
            exact reports_readElements g _ b hr
      · rw [parse_eq_ok_iff.2 hs] at hp
        cases hp

end Main

end Dataflow.Reference
