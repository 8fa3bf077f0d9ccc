import Dataflow.Code.Listing
import Dataflow.Proofs.Code.Word
import Dataflow.Proofs.Outcome

/-!
# Reading a binary listing back

A binary listing is a magic word, a version and a sequence of records, each preceded by its
length. A reader that takes bytes off the front recovers the module's name and the name and text
of every function, and leaves what follows the listing unread. So no listing continues another
one, and two listings with the same bytes say the same.
-/

namespace Dataflow.Code

namespace Listing

abbrev Reader := StateT (List UInt8) Option

namespace Reader

def bytes (count : Nat) : Reader (List UInt8) := fun unread =>
  if count ≤ unread.length then some (unread.take count, unread.drop count) else none

def length : Reader Nat := do
  let taken ← bytes 4
  return Bytes.toNat taken

def exactly (expected : List UInt8) : Reader Unit := do
  let taken ← bytes expected.length
  guard (taken = expected)

def record : Reader String := do
  let count ← length
  let taken ← bytes count
  String.fromUTF8? ⟨taken.toArray⟩

def function : Reader (String × String) := do
  let name ← record
  let ir ← record
  return (name, ir)

def many (r : Reader α) : Nat → Reader (List α)
  | 0 => return []
  | count + 1 => do
      let a ← r
      let as ← many r count
      return a :: as

def listing : Reader (String × List (String × String)) := do
  exactly (utf8 magic)
  exactly (Bytes.ofNat 4 version)
  let module ← record
  let count ← length
  let functions ← many function count
  return (module, functions)

end Reader

/-! ### What is written -/

def lengthBytes (n : Nat) : List UInt8 := Bytes.ofNat 4 n

def recordBytes (s : String) : List UInt8 := lengthBytes (utf8 s).length ++ utf8 s

def functionBytes (f : FunctionListing) : List UInt8 := recordBytes f.name ++ recordBytes f.ir

/-- The bytes of a listing, without a look at whether its lengths can be written. -/
def binary (l : Listing) : List UInt8 :=
  utf8 magic ++ Bytes.ofNat 4 version ++ recordBytes l.module ++ lengthBytes l.functions.length ++
    (l.functions.map functionBytes).flatten

def contents (l : Listing) : String × List (String × String) :=
  (l.module, l.functions.map fun f => (f.name, f.ir))

def Writable (s : String) : Prop := (utf8 s).length < 2 ^ 32

structure Representable (l : Listing) : Prop where
  module : Writable l.module
  functions : ∀ f ∈ l.functions, Writable f.name ∧ Writable f.ir
  count : l.functions.length < 2 ^ 32

theorem encodeLength_eq_ok {n : Nat} {bs : List UInt8} :
    encodeLength n = .ok bs ↔ n < 2 ^ 32 ∧ lengthBytes n = bs := by
  change (if n < 2 ^ 32 then Except.ok (lengthBytes n) else _) = _ ↔ _
  by_cases h : n < 2 ^ 32
  · rw [if_pos h]
    exact ⟨fun he => ⟨h, Except.ok.inj he⟩, fun he => congrArg _ he.2⟩
  · rw [if_neg h]
    exact ⟨fun he => (by cases he), fun he => absurd he.1 h⟩

theorem encodeRecord_eq_ok {s : String} {bs : List UInt8} :
    encodeRecord s = .ok bs ↔ Writable s ∧ recordBytes s = bs := by
  unfold encodeRecord
  rw [bind_eq_ok_iff]
  constructor
  · rintro ⟨count, hcount, h⟩
    obtain ⟨hlt, rfl⟩ := encodeLength_eq_ok.1 hcount
    exact ⟨hlt, Except.ok.inj h⟩
  · rintro ⟨hlt, rfl⟩
    exact ⟨_, encodeLength_eq_ok.2 ⟨hlt, rfl⟩, rfl⟩

theorem encodeFunction_eq_ok {f : FunctionListing} {bs : List UInt8} :
    encodeFunction f = .ok bs ↔ (Writable f.name ∧ Writable f.ir) ∧ functionBytes f = bs := by
  unfold encodeFunction
  simp only [bind_eq_ok_iff]
  constructor
  · rintro ⟨name, hname, ir, hir, h⟩
    obtain ⟨hn, rfl⟩ := encodeRecord_eq_ok.1 hname
    obtain ⟨hi, rfl⟩ := encodeRecord_eq_ok.1 hir
    exact ⟨⟨hn, hi⟩, Except.ok.inj h⟩
  · rintro ⟨⟨hn, hi⟩, rfl⟩
    exact ⟨_, encodeRecord_eq_ok.2 ⟨hn, rfl⟩, _, encodeRecord_eq_ok.2 ⟨hi, rfl⟩, rfl⟩

theorem mapM_encodeFunction_eq_ok {fs : List FunctionListing} {bss : List (List UInt8)} :
    fs.mapM encodeFunction = .ok bss ↔
      (∀ f ∈ fs, Writable f.name ∧ Writable f.ir) ∧ fs.map functionBytes = bss := by
  rw [mapM_eq_ok_iff]
  simp only [encodeFunction_eq_ok]
  induction fs generalizing bss with
  | nil => simp [eq_comm]
  | cons f fs ih =>
      rw [List.forall₂_cons_left_iff]
      constructor
      · rintro ⟨bs, bss', ⟨hf, rfl⟩, hfs, rfl⟩
        obtain ⟨hall, rfl⟩ := ih.1 hfs
        exact ⟨List.forall_mem_cons.2 ⟨hf, hall⟩, rfl⟩
      · rintro ⟨hall, rfl⟩
        obtain ⟨hf, hfs⟩ := List.forall_mem_cons.1 hall
        exact ⟨_, _, ⟨hf, rfl⟩, ih.2 ⟨hfs, rfl⟩, rfl⟩

/-- A binary listing is written exactly where every length fits its four bytes. -/
theorem bitcode_eq_ok {l : Listing} {bs : List UInt8} :
    l.bitcode = .ok bs ↔ l.Representable ∧ l.binary = bs := by
  unfold bitcode
  simp only [bind_eq_ok_iff]
  constructor
  · rintro ⟨name, hname, count, hcount, bss, hbss, h⟩
    obtain ⟨hm, rfl⟩ := encodeRecord_eq_ok.1 hname
    obtain ⟨hc, rfl⟩ := encodeLength_eq_ok.1 hcount
    obtain ⟨hf, rfl⟩ := mapM_encodeFunction_eq_ok.1 hbss
    exact ⟨⟨hm, hf, hc⟩, Except.ok.inj h⟩
  · rintro ⟨h, rfl⟩
    exact ⟨_, encodeRecord_eq_ok.2 ⟨h.module, rfl⟩, _, encodeLength_eq_ok.2 ⟨h.count, rfl⟩, _,
      mapM_encodeFunction_eq_ok.2 ⟨h.functions, rfl⟩, rfl⟩

/-! ### What is read -/

def Reads (r : Reader α) (bs : List UInt8) (a : α) : Prop :=
  ∀ rest, r (bs ++ rest) = some (a, rest)

theorem reads_pure (a : α) : Reads (pure a) [] a := fun _ => rfl

theorem Reads.bind {r : Reader α} {next : α → Reader β} {bs front back : List UInt8} {a : α} {b : β}
    (hbs : front ++ back = bs) (h : Reads r front a) (h' : Reads (next a) back b) :
    Reads (r >>= next) bs b := by
  intro rest
  change (r (bs ++ rest)).bind (fun p => next p.1 p.2) = _
  rw [← hbs, List.append_assoc, h]
  exact h' rest

theorem reads_bytes (bs : List UInt8) : Reads (Reader.bytes bs.length) bs bs := by
  intro rest
  simp [Reader.bytes]

theorem reads_exactly (bs : List UInt8) : Reads (Reader.exactly bs) bs () := by
  unfold Reader.exactly
  refine .bind (List.append_nil bs) (reads_bytes bs) ?_
  simp only [guard, if_true]
  exact reads_pure ()

theorem reads_length {n : Nat} (h : n < 2 ^ 32) : Reads Reader.length (lengthBytes n) n := by
  have htake : Reads (Reader.bytes 4) (lengthBytes n) (lengthBytes n) := by
    simpa [lengthBytes] using reads_bytes (lengthBytes n)
  have hback : Bytes.toNat (lengthBytes n) = n := Bytes.toNat_ofNat_of_lt h
  unfold Reader.length
  refine .bind (List.append_nil _) htake ?_
  rw [hback]
  exact reads_pure n

theorem fromUTF8?_utf8 (s : String) : String.fromUTF8? ⟨(utf8 s).toArray⟩ = some s := by
  simp only [utf8, Array.toArray_toList]
  exact dif_pos s.isValidUTF8

theorem reads_record {s : String} (h : Writable s) : Reads Reader.record (recordBytes s) s := by
  unfold Reader.record
  refine .bind rfl (reads_length h) (.bind (List.append_nil _) (reads_bytes (utf8 s)) ?_)
  rw [fromUTF8?_utf8]
  exact fun _ => rfl

theorem reads_function {f : FunctionListing} (hn : Writable f.name) (hi : Writable f.ir) :
    Reads Reader.function (functionBytes f) (f.name, f.ir) := by
  unfold Reader.function
  exact .bind rfl (reads_record hn) (.bind (List.append_nil _) (reads_record hi) (reads_pure _))

theorem reads_many {r : Reader β} {write : α → List UInt8} {read : α → β} {as : List α}
    (h : ∀ a ∈ as, Reads r (write a) (read a)) :
    Reads (Reader.many r as.length) (as.map write).flatten (as.map read) := by
  induction as with
  | nil => exact reads_pure []
  | cons a as ih =>
      obtain ⟨ha, has⟩ := List.forall_mem_cons.1 h
      rw [List.length_cons, Reader.many]
      exact .bind rfl ha (.bind (List.append_nil _) (ih has) (reads_pure _))

/-- A listing that can be written is read back, and the reader stops where the listing ends. -/
theorem reads_listing {l : Listing} (h : l.Representable) :
    Reads Reader.listing l.binary l.contents := by
  have hfunctions := reads_many fun f hf => reads_function (h.functions f hf).1 (h.functions f hf).2
  unfold Reader.listing binary
  simp only [List.append_assoc]
  exact .bind rfl (reads_exactly (utf8 magic)) <|
    .bind rfl (reads_exactly (Bytes.ofNat 4 version)) <|
    .bind rfl (reads_record h.module) <| .bind rfl (reads_length h.count) <|
    .bind (List.append_nil _) hfunctions (reads_pure l.contents)

theorem Reads.determines {r : Reader α} {bs bs' : List UInt8} {a a' : α}
    (h : Reads r bs a) (h' : Reads r bs' a') (hp : bs <+: bs') : a = a' := by
  obtain ⟨rest, rfl⟩ := hp
  have hread := (h rest).symm.trans (by simpa using h' [])
  exact (Prod.mk.inj (Option.some.inj hread)).1

theorem not_representable_iff {l : Listing} :
    ¬ l.Representable ↔ 2 ^ 32 ≤ (utf8 l.module).length ∨
      (∃ f ∈ l.functions, 2 ^ 32 ≤ (utf8 f.name).length ∨ 2 ^ 32 ≤ (utf8 f.ir).length) ∨
      2 ^ 32 ≤ l.functions.length := by
  constructor
  · intro h
    by_contra hall
    simp only [not_or, not_exists, not_and, not_le] at hall
    exact h ⟨hall.1, hall.2.1, hall.2.2⟩
  · rintro (h | ⟨f, hf, h | h⟩ | h) hr
    · exact absurd hr.module h.not_gt
    · exact absurd (hr.functions f hf).1 h.not_gt
    · exact absurd (hr.functions f hf).2 h.not_gt
    · exact absurd hr.count h.not_gt

/-- A stream with room for all the bytes refuses only what cannot be encoded. -/
theorem writeInto_bitcode_fails_iff {l : Listing} {room : Nat} (hroom : l.binary.length ≤ room) :
    (∃ e, l.writeInto .bitcode room = .error e) ↔ ¬ l.Representable := by
  constructor
  · rintro ⟨e, he⟩ hr
    have hok : l.encode .bitcode = .ok l.binary := bitcode_eq_ok.2 ⟨hr, rfl⟩
    rw [writeInto, hok] at he
    change (if l.binary.length ≤ room then _ else _) = _ at he
    rw [if_pos hroom] at he
    cases he
  · intro hr
    cases hb : l.encode .bitcode with
    | ok bs => exact absurd (bitcode_eq_ok.1 hb).1 hr
    | error e => exact ⟨e, by rw [writeInto, hb]; rfl⟩

/-- Binary listings are uniquely decodable: one whose bytes start another one's has the same
contents. Written to a stream with room for it, a listing is refused exactly where a length does
not fit its four bytes. -/
theorem bitcode_uniquely_decodable :
    (∀ (l₁ l₂ : Listing) (bs₁ bs₂ : List UInt8), l₁.encode .bitcode = .ok bs₁ →
      l₂.encode .bitcode = .ok bs₂ → bs₁ <+: bs₂ →
      l₁.module = l₂.module ∧
        l₁.functions.map (fun f => (f.name, f.ir)) = l₂.functions.map fun f => (f.name, f.ir)) ∧
    ∀ (l : Listing) (room : Nat), l.binary.length ≤ room →
      ((∃ e, l.writeInto .bitcode room = .error e) ↔
        2 ^ 32 ≤ (utf8 l.module).length ∨
        (∃ f ∈ l.functions, 2 ^ 32 ≤ (utf8 f.name).length ∨ 2 ^ 32 ≤ (utf8 f.ir).length) ∨
        2 ^ 32 ≤ l.functions.length) := by
  constructor
  · intro l₁ l₂ bs₁ bs₂ h₁ h₂ hp
    obtain ⟨hr₁, rfl⟩ := bitcode_eq_ok.1 h₁
    obtain ⟨hr₂, rfl⟩ := bitcode_eq_ok.1 h₂
    exact Prod.mk.inj ((reads_listing hr₁).determines (reads_listing hr₂) hp)
  · intro l room hroom
    rw [writeInto_bitcode_fails_iff hroom, not_representable_iff]

def sample (ir assembly : String) : Listing := ⟨"m", [⟨"f", ir, assembly⟩, ⟨"", "FLWC", ""⟩]⟩

/-- Two listings that differ in their assembly alone are written alike. -/
theorem bitcode_sample : ∃ bs bs', (sample "" "a").encode .bitcode = .ok bs ∧
    (sample "" "b").encode .bitcode = .ok bs' ∧ bs <+: bs' ∧
    (sample "" "a").functions.map (fun f => (f.name, f.ir)) = [("f", ""), ("", "FLWC")] ∧
    ∀ e, (sample "" "a").writeInto .bitcode 100 ≠ .error e := by
  have ha : (sample "" "a").encode .bitcode = .ok (sample "" "a").binary := rfl
  have hb : (sample "" "b").encode .bitcode = .ok (sample "" "b").binary := rfl
  have hp : (sample "" "a").binary <+: (sample "" "b").binary := by decide
  have hsame := (bitcode_uniquely_decodable.1 _ _ _ _ ha hb hp).2
  have hroom : (sample "" "a").binary.length ≤ 100 := by decide
  refine ⟨_, _, ha, hb, hp, hsame, fun e he => ?_⟩
  have hbad := (bitcode_uniquely_decodable.2 _ _ hroom).1 ⟨e, he⟩
  revert hbad
  decide

end Listing

end Dataflow.Code
