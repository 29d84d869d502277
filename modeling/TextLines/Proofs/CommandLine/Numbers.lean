import TextLines.CommandLine.Run
import TextLines.Proofs.CommandLine.Arguments
import TextLines.Proofs.Json.Scanning

/-!
# Numbers in options

The options for the size of chunks, for the limit on lines and for the length of names take a
number. A text is such a number if it is digits and the number is in range (`NumberOption.Says`).
`NumberOption.Checked` is the law that an option takes these texts, each as the number that it says,
and that nothing is read if the text is any other.

The law does not hold of all texts. What is checked is that a text has no sign at its front, and
then a number is read that may have blanks and a sign in front of it and anything behind it
(`Number.Reads`). The texts that slip through are `NumberOption.Slips`, and the law holds of
all others (`NumberOption.checked_iff`). One that slips through is a negative number behind a blank
(`NumberOption.negative_behind_blank`).
-/

namespace TextLines

open Bytes
open Files (FileSystem)

/-! ## The number at the front of a text -/

/-- A number at the front of a text, by its sign and its absolute value: blanks, a sign, and as many
digits as there are. -/
inductive Number.Reads : Bytes → Bool → Nat → Prop where
  | intro {blanks sign digits rest : Bytes} {negative : Bool}
      (hblanks : ∀ b ∈ blanks, isSpace b = true) (hsign : Json.Sign sign negative)
      (hdigits : Json.Digits digits) (hrest : ∀ b ∈ rest.head?, isDigit b = false) :
      Reads (blanks ++ (sign ++ (digits ++ rest))) negative (ofDigits digits)

namespace Number

theorem isSpace_of_isDigit {b : UInt8} (h : isDigit b = true) : isSpace b = false := by
  simp only [isDigit, Bool.and_eq_true, decide_eq_true_eq, UInt8.le_iff_toNat_le] at h
  have hlow : (48 : UInt8).toNat ≤ b.toNat := h.1
  have hne : b ≠ 32 := by
    rintro rfl
    cases hlow.not_gt (by decide)
  have hgt : ¬ b ≤ 13 := fun hle => by
    rw [UInt8.le_iff_toNat_le] at hle
    exact absurd (hlow.trans hle) (by decide)
  rw [isSpace, beq_eq_false_iff_ne.mpr hne, decide_eq_false hgt, Bool.and_false, Bool.or_false]

/-- The blanks end where the sign or the digits begin. -/
theorem dropWhile_isSpace {sign digits : Bytes} {negative : Bool} (hsign : Json.Sign sign negative)
    (hdigits : Json.Digits digits) (rest : Bytes) :
    (sign ++ (digits ++ rest)).dropWhile isSpace = sign ++ (digits ++ rest) := by
  cases hsign with
  | plus => rfl
  | minus => rfl
  | absent =>
    obtain ⟨b, more, rfl⟩ := List.exists_cons_of_ne_nil hdigits.1
    have hb := isSpace_of_isDigit (hdigits.2 b List.mem_cons_self)
    exact List.dropWhile_cons_of_neg (ne_true_of_eq_false hb)

/-- What is read is the number at the front of the text. -/
theorem read?_eq_some_iff {text : Bytes} {negative : Bool} {n : Nat} :
    read? text = some (negative, n) ↔ Reads text negative n := by
  have hread : read? text = (Json.readDigits (splitSign (text.dropWhile isSpace)).2).map fun r =>
      ((splitSign (text.dropWhile isSpace)).1, ofDigits r.1) := by
    rw [read?, Json.readDigits]
    dsimp only
    split <;> rfl
  rw [hread]
  constructor
  · intro h
    obtain ⟨⟨digits, rest⟩, hdigits, hpair⟩ := Option.map_eq_some_iff.mp h
    obtain ⟨rfl, rfl⟩ := Prod.mk.inj hpair
    obtain ⟨hbehind, hd⟩ := Json.digits_of_readDigits hdigits
    obtain ⟨sign, hsplit, hsign⟩ := Json.sign_splitSign (text.dropWhile isSpace)
    have htext : text.takeWhile isSpace ++ (sign ++ (digits ++ rest)) = text := by
      rw [← hbehind, ← hsplit, List.takeWhile_append_dropWhile]
    have hrest : ∀ b ∈ rest.head?, isDigit b = false := by
      intro b hb
      have hhead := List.head?_dropWhile_not isDigit (splitSign (text.dropWhile isSpace)).2
      rw [Json.readDigits] at hdigits
      split at hdigits
      · cases hdigits
      · rw [(Prod.mk.inj (Option.some.inj hdigits)).2, hb] at hhead
        exact hhead
    have hblanks : ∀ b ∈ text.takeWhile isSpace, isSpace b = true :=
      fun _ => List.mem_takeWhile_imp
    have hreads := Reads.intro hblanks hsign hd hrest
    rwa [htext] at hreads
  · intro h
    cases h with
    | intro hblanks hsign hdigits hrest =>
      rw [List.dropWhile_append_of_pos hblanks, dropWhile_isSpace hsign hdigits,
        Json.splitSign_append hsign hdigits, hdigits.read hrest]
      rfl

theorem Reads.of_digits {text : Bytes} (h : Json.Digits text) :
    Reads text false (ofDigits text) := by
  have hreads : Reads ([] ++ ([] ++ (text ++ []))) false (ofDigits text) :=
    .intro nofun .absent h nofun
  rwa [List.nil_append, List.nil_append, List.append_nil] at hreads

/-- There is one number at the front of a text at most. -/
theorem Reads.unique {text : Bytes} {negative negative' : Bool} {n n' : Nat}
    (h : Reads text negative n) (h' : Reads text negative' n') :
    negative = negative' ∧ n = n' :=
  Prod.mk.inj (Option.some.inj
    ((read?_eq_some_iff.mpr h).symm.trans (read?_eq_some_iff.mpr h')))

theorem unsigned?_eq_some_iff {text : Bytes} {n : Nat} :
    unsigned? text = some n ↔ ∃ negative m, Reads text negative m ∧ m < wordSize ∧
      (if negative then (wordSize - m) % wordSize else m) = n := by
  have hbind : unsigned? text = (read? text).bind fun r =>
      if wordSize ≤ r.2 then none
      else some (if r.1 then (wordSize - r.2) % wordSize else r.2) := by
    rw [unsigned?]
    cases read? text <;> rfl
  rw [hbind, Option.bind_eq_some_iff]
  simp only [Prod.exists, read?_eq_some_iff, Option.ite_none_left_eq_some, Option.some_inj,
    Nat.not_le]

theorem signed?_eq_some_iff {text : Bytes} {v : Int} :
    signed? text = some v ↔ ∃ negative m, Reads text negative m ∧
      (-0x80000000 ≤ v ∧ v < 0x80000000) ∧ Json.signed negative m = v := by
  have hbind : signed? text = (read? text).bind fun r =>
      if -0x80000000 ≤ Json.signed r.1 r.2 ∧ Json.signed r.1 r.2 < 0x80000000 then
        some (Json.signed r.1 r.2)
      else none := by
    rw [signed?]
    cases read? text <;> rfl
  rw [hbind, Option.bind_eq_some_iff]
  simp only [Prod.exists, read?_eq_some_iff, Option.ite_none_right_eq_some, Option.some_inj]
  constructor
  · rintro ⟨negative, m, hreads, hrange, rfl⟩
    exact ⟨negative, m, hreads, hrange, rfl⟩
  · rintro ⟨negative, m, hreads, hrange, rfl⟩
    exact ⟨negative, m, hreads, hrange, rfl⟩

end Number

/-! ## Options that take a number -/

/-- The options that take a number. -/
inductive NumberOption where
  | chunkBytes
  | maxLineBytes
  | slugLength
  deriving DecidableEq, Repr

namespace NumberOption

/-- What is set. -/
def setting : NumberOption → Setting
  | .chunkBytes => .chunkBytes
  | .maxLineBytes => .maxLineBytes
  | .slugLength => .slugLength

/-- What stands in front of the number. -/
def flag : NumberOption → String
  | .chunkBytes => "--chunk-bytes="
  | .maxLineBytes => "--max-line-bytes="
  | .slugLength => "--slug-len="

/-- The argument with this text behind the flag. -/
def argument (k : NumberOption) (text : Bytes) : Bytes :=
  ascii k.flag ++ text

/-- The least number that is accepted. -/
def least : NumberOption → Nat
  | .maxLineBytes => 0
  | _ => 1

/-- All numbers that are accepted are below this one. -/
def bound : NumberOption → Nat
  | .slugLength => 0x80000000
  | _ => 0x10000000000000000

/-- Gives an option the value. -/
def set (k : NumberOption) (n : Nat) (o : Options) : Options :=
  match k with
  | .chunkBytes => { o with chunkBytes := n }
  | .maxLineBytes => { o with maxLineBytes := n }
  | .slugLength => { o with slugLength := n }

/-- The text is digits, and the number that they say is in range. -/
structure Says (k : NumberOption) (text : Bytes) (n : Nat) : Prop where
  digits : Json.Digits text
  value : Number.ofDigits text = n
  least : k.least ≤ n
  bound : n < k.bound

/-- The text is taken as the value `n`: every list of arguments that is accepted with a 1 in its
place is accepted, and means the same but for this value. -/
def Takes (k : NumberOption) (text : Bytes) (n : Nat) : Prop :=
  ∀ load before after o, (∀ a ∈ after, ¬ ascii k.flag <+: a) →
    Options.ofArguments load (before ++ k.argument (ascii "1") :: after) = .ok o →
      Options.ofArguments load (before ++ k.argument text :: after) = .ok (k.set n o)

/-- The text is refused: unless the usage was asked for, the program ends with status 2, and it has
neither looked at the files, those with configurations apart, nor changed any. -/
def Refuses (k : NumberOption) (text : Bytes) : Prop :=
  ∀ load before after, (∀ a ∈ before ++ after, a ≠ ascii "-h" ∧ a ≠ ascii "--help") →
    (∀ a ∈ after, ¬ ascii k.flag <+: a) →
      ∃ refusal : Refusal,
        Options.ofArguments load (before ++ k.argument text :: after) = .error refusal ∧
          refusal.output.status = 2 ∧
            ∀ [Room] [JsonReader] timing fs, Config.load fs = load →
              run timing fs (before ++ k.argument text :: after) = (refusal.output, fs)

/-- The law: numbers in range are taken as what they say, and any other text is refused. -/
structure Checked (k : NumberOption) (text : Bytes) : Prop where
  takes : ∀ n, k.Says text n → k.Takes text n
  refuses : (∀ n, ¬ k.Says text n) → k.Refuses text

/-! ## What is read as a number -/

/-- The text begins with a sign, and the option looks for that. -/
def Guards (k : NumberOption) (text : Bytes) : Prop :=
  k ≠ .slugLength ∧ (text.head? = some 45 ∨ text.head? = some 43)

/-- The value of a number with its sign. A negative number of 64 bits wraps around, one of 32 bits
is out of range. -/
def wrap (k : NumberOption) (negative : Bool) (n : Nat) : Nat :=
  if k = .slugLength then if negative then 0 else n
  else if negative then (Number.wordSize - n) % Number.wordSize else n

/-- A number in range is read from the front of the text, and nothing else is looked at but whether
there is a sign. -/
structure Reads (k : NumberOption) (text : Bytes) (n : Nat) : Prop where
  unguarded : ¬ k.Guards text
  number : ∃ negative m, Number.Reads text negative m ∧ m < k.bound ∧ k.wrap negative m = n
  least : k.least ≤ n

/-- The text is no number, and it is read as one. -/
def Slips (k : NumberOption) (text : Bytes) : Prop :=
  ¬ Json.Digits text ∧ ∃ n, k.Reads text n

/-- What the option with this text does, if the argument is `argument`. -/
def outcome (k : NumberOption) (argument text : Bytes) : Except Refusal Change :=
  match k with
  | .chunkBytes => (natural argument text).map .chunkBytes
  | .maxLineBytes => (natural argument text).map .maxLineBytes
  | .slugLength =>
    match Number.signed? text with
    | some n => .ok (.slugLength n)
    | none => .error .badSigned

variable {load : (path : Bytes) → Except ConfigFault Config}

theorem ofArgument_argument (k : NumberOption) (text : Bytes) :
    Change.ofArgument load (k.argument text) = k.outcome (k.argument text) text := by
  have hmem : (k.flag, fun argument text => k.outcome argument text) ∈ Change.ofValue load := by
    cases k with
    | chunkBytes => exact .tail _ (.tail _ (.head _))
    | maxLineBytes => exact .tail _ (.tail _ (.tail _ (.head _)))
    | slugLength =>
      exact .tail _ (.tail _ (.tail _ (.tail _ (.tail _ (.tail _ (.tail _ (.head _)))))))
  exact Change.ofArgument_of_mem hmem text

/-- What the option does with a value. -/
def change (k : NumberOption) (n : Nat) : Change :=
  match k with
  | .chunkBytes => .chunkBytes n
  | .maxLineBytes => .maxLineBytes n
  | .slugLength => .slugLength n

theorem setting?_change (k : NumberOption) (n : Nat) : (k.change n).setting? = some k.setting := by
  cases k <;> rfl

theorem natural_eq_ok_iff {argument text : Bytes} {n : Nat} :
    natural argument text = .ok n ↔
      ¬ (text.head? = some 45 ∨ text.head? = some 43) ∧ Number.unsigned? text = some n := by
  cases text with
  | nil => exact iff_of_false (fun h => by cases h) fun h => by cases h.2
  | cons first rest =>
    rw [natural, List.head?_cons, Option.some_inj, Option.some_inj]
    by_cases hsign : first = 45 ∨ first = 43
    · have htest : (first == 45 || first == 43) = true := by
        rw [Bool.or_eq_true, beq_iff_eq, beq_iff_eq]
        exact hsign
      rw [if_pos htest]
      exact iff_of_false (fun h => by cases h) fun h => h.1 hsign
    · have htest : ¬ (first == 45 || first == 43) = true := by
        rw [Bool.or_eq_true, beq_iff_eq, beq_iff_eq]
        exact hsign
      rw [if_neg htest, and_iff_right hsign]
      cases Number.unsigned? (first :: rest) with
      | none => exact iff_of_false (fun h => by cases h) fun h => by cases h
      | some m => rw [Except.ok.injEq, Option.some_inj]

/-- An option of 64 bits takes a value that is read from a text with no sign at its front. -/
theorem natural_reads_iff {k : NumberOption} (hk : k ≠ .slugLength) {argument text : Bytes}
    {n : Nat} : k.Reads text n ↔ natural argument text = .ok n ∧ k.least ≤ n := by
  have hguards : k.Guards text ↔ text.head? = some 45 ∨ text.head? = some 43 := and_iff_right hk
  have hbound : k.bound = Number.wordSize := by
    cases k with
    | slugLength => exact absurd rfl hk
    | chunkBytes | maxLineBytes => rfl
  have hwrap : ∀ negative m, k.wrap negative m =
      if negative then (Number.wordSize - m) % Number.wordSize else m :=
    fun negative m => if_neg hk
  rw [natural_eq_ok_iff, Number.unsigned?_eq_some_iff, ← hguards]
  constructor
  · intro h
    obtain ⟨negative, m, hreads, hlt, hvalue⟩ := h.number
    rw [hwrap] at hvalue
    rw [hbound] at hlt
    exact ⟨⟨h.unguarded, negative, m, hreads, hlt, hvalue⟩, h.least⟩
  · rintro ⟨⟨hunguarded, negative, m, hreads, hlt, hvalue⟩, hleast⟩
    rw [← hwrap] at hvalue
    rw [← hbound] at hlt
    exact ⟨hunguarded, ⟨negative, m, hreads, hlt, hvalue⟩, hleast⟩

/-- The option of 32 bits takes a value that is read from a text without a minus sign. -/
theorem signed_reads_iff {text : Bytes} {n : Nat} :
    slugLength.Reads text n ↔ Number.signed? text = some (n : Int) ∧ slugLength.least ≤ n := by
  rw [Number.signed?_eq_some_iff]
  constructor
  · rintro ⟨-, ⟨negative, m, hreads, hbound, hwrap⟩, hleast⟩
    cases negative with
    | true =>
      obtain rfl : 0 = n := hwrap
      cases hleast
    | false =>
      obtain rfl : m = n := hwrap
      have hlt : m < 0x80000000 := hbound
      exact ⟨⟨false, m, hreads, ⟨by omega, by omega⟩, rfl⟩, hleast⟩
  · rintro ⟨⟨negative, m, hreads, ⟨-, hlt⟩, hsigned⟩, hleast⟩
    have hpos : 1 ≤ n := hleast
    cases negative with
    | true =>
      have hneg : -(m : Int) = n := hsigned
      omega
    | false =>
      have heq : (m : Int) = n := hsigned
      have hbound : m < 0x80000000 := by omega
      exact ⟨fun hguards => hguards.1 rfl, ⟨false, m, hreads, hbound, Int.ofNat.inj heq⟩, hleast⟩

/-- The texts that an option takes a number in range from, by what it does with them. -/
theorem reads_iff {k : NumberOption} {argument text : Bytes} {n : Nat} :
    k.Reads text n ↔ k.outcome argument text = .ok (k.change n) ∧ k.least ≤ n := by
  cases k with
  | chunkBytes =>
    rw [natural_reads_iff (by decide), outcome, change]
    cases natural argument text <;> simp [Except.map]
  | maxLineBytes =>
    rw [natural_reads_iff (by decide), outcome, change]
    cases natural argument text <;> simp [Except.map]
  | slugLength =>
    rw [signed_reads_iff, outcome, change]
    cases Number.signed? text <;> simp

/-! ## Lists of arguments -/

theorem flag?_setting (k : NumberOption) : k.setting.flag? = some k.flag := by
  cases k <;> rfl

/-- If the option is not given again its change can be made in the end. -/
theorem changeAll_argument {k : NumberOption} {text : Bytes} {c : Change}
    (htext : Change.ofArgument load (k.argument text) = .ok c) (hc : c.setting? = some k.setting)
    {before after : List Bytes} (hafter : ∀ a ∈ after, ¬ ascii k.flag <+: a) (d : Draft) :
    d.changeAll (changesOf load (before ++ k.argument text :: after)) =
      c.apply ((d.changeAll (changesOf load before)).changeAll (changesOf load after)) := by
  have hsplit : changesOf load (before ++ k.argument text :: after) =
      changesOf load before ++ c :: changesOf load after := by
    rw [changesOf, List.filterMap_append, List.filterMap_cons, htext]
    rfl
  have hothers : ∀ c ∈ changesOf load after, c.setting? ≠ some k.setting := by
    intro c hc hset
    obtain ⟨a, ha, htaken⟩ := mem_changesOf.mp hc
    exact hafter a ha (Change.flag_prefix_of_ofArgument htaken hset k.flag?_setting)
  rw [hsplit, Draft.changeAll, List.foldl_append]
  exact Draft.changeAll_cons_eq hc hothers _

/-- What is checked of a value is that it is not too small. -/
theorem check_change {k : NumberOption} {d : Draft} {o : Options}
    (h : ((k.change 1).apply d).check = .ok o) {n : Nat} (hn : k.least ≤ n) :
    ((k.change n).apply d).check = .ok (k.set n o) := by
  obtain ⟨mode, hmode, hchunk, hslug, hfiles, rfl⟩ := Draft.check_eq_ok_iff.mp h
  rw [Draft.check_eq_ok_iff]
  cases k with
  | chunkBytes =>
    have hpos : n ≠ 0 := Nat.pos_iff_ne_zero.mp hn
    exact ⟨mode, hmode, hpos, hslug, hfiles, rfl⟩
  | maxLineBytes => exact ⟨mode, hmode, hchunk, hslug, hfiles, rfl⟩
  | slugLength =>
    have hpos : (0 : Int) < n := Int.natCast_pos.mpr hn
    exact ⟨mode, hmode, hchunk, hpos, hfiles, rfl⟩

/-- A text from which a number in range is read is taken as this number. -/
theorem Reads.takes {k : NumberOption} {text : Bytes} {n : Nat} (h : k.Reads text n) :
    k.Takes text n := by
  intro load before after o hafter ho
  have hone : Change.ofArgument load (k.argument (ascii "1")) = .ok (k.change 1) := by
    rw [ofArgument_argument]
    cases k <;> decide +kernel
  have htext : Change.ofArgument load (k.argument text) = .ok (k.change n) :=
    (k.ofArgument_argument text).trans (reads_iff.mp h).1
  obtain ⟨htaken, hcheck⟩ := Options.ofArguments_eq_ok_iff.mp ho
  rw [changeAll_argument hone (k.setting?_change 1) hafter] at hcheck
  rw [Options.ofArguments_eq_ok_iff, changeAll_argument htext (k.setting?_change n) hafter]
  refine ⟨fun a ha => ?_, check_change hcheck h.least⟩
  rcases List.mem_append.mp ha with hbefore | hrest
  · exact htaken a (List.mem_append_left _ hbefore)
  rcases List.mem_cons.mp hrest with rfl | hmem
  · exact ⟨_, htext⟩
  · exact htaken a (List.mem_append_right _ (List.mem_cons_of_mem _ hmem))

/-- What an option does changes its setting. -/
theorem setting?_of_outcome {k : NumberOption} {argument text : Bytes} {c : Change}
    (h : k.outcome argument text = .ok c) : c.setting? = some k.setting := by
  cases k with
  | chunkBytes | maxLineBytes =>
    obtain ⟨n, -, rfl⟩ := map_eq_ok_iff.mp h
    rfl
  | slugLength =>
    unfold outcome at h
    dsimp only at h
    split at h
    · rw [← Except.ok.inj h]
      rfl
    · cases h

/-- A change that passes the checks is to a value that is not too small. -/
theorem exists_of_check {k : NumberOption} {c : Change} (hc : c.setting? = some k.setting)
    {d : Draft} {o : Options} (h : (c.apply d).check = .ok o) :
    ∃ n, c = k.change n ∧ k.least ≤ n := by
  obtain ⟨mode, -, hchunk, hslug, -, -⟩ := Draft.check_eq_ok_iff.mp h
  cases k <;> cases c <;> cases hc
  case chunkBytes.chunkBytes n => exact ⟨n, rfl, Nat.pos_iff_ne_zero.mpr hchunk⟩
  case maxLineBytes.maxLineBytes n => exact ⟨n, rfl, Nat.zero_le n⟩
  case slugLength.slugLength v =>
    have hpos : 0 < v := hslug
    refine ⟨v.toNat, congrArg Change.slugLength (by omega), ?_⟩
    show 1 ≤ v.toNat
    omega

/-- A text that is accepted is read as a number in range. -/
theorem exists_reads {k : NumberOption} {text : Bytes} {before after : List Bytes} {o : Options}
    (hafter : ∀ a ∈ after, ¬ ascii k.flag <+: a)
    (ho : Options.ofArguments load (before ++ k.argument text :: after) = .ok o) :
    ∃ n, k.Reads text n := by
  obtain ⟨htaken, hcheck⟩ := Options.ofArguments_eq_ok_iff.mp ho
  obtain ⟨c, hc⟩ := htaken (k.argument text) (List.mem_append_right _ List.mem_cons_self)
  have houtcome := (k.ofArgument_argument text).symm.trans hc
  have hset := setting?_of_outcome houtcome
  rw [changeAll_argument hc hset hafter] at hcheck
  obtain ⟨n, rfl, hleast⟩ := exists_of_check hset hcheck
  exact ⟨n, reads_iff.mpr ⟨houtcome, hleast⟩⟩

/-- A text is refused if no number in range is read from it. -/
theorem refuses_of_not_reads {k : NumberOption} {text : Bytes} (h : ∀ n, ¬ k.Reads text n) :
    k.Refuses text := by
  intro load before after hhelp hafter
  cases ho : Options.ofArguments load (before ++ k.argument text :: after) with
  | ok o =>
    obtain ⟨n, hreads⟩ := exists_reads hafter ho
    exact absurd hreads (h n)
  | error refusal =>
    have hne : ∀ word : String, (ascii k.flag).isPrefixOf (ascii word) = false →
        k.argument text ≠ ascii word := by
      intro word hprefix heq
      have hflag : ascii k.flag <+: ascii word := ⟨text, heq⟩
      rw [List.isPrefixOf_iff_prefix.mpr hflag] at hprefix
      cases hprefix
    have hfailure : refusal.isFailure = true := by
      have hwanted : refusal ≠ .helpWanted := by
        refine Options.ne_helpWanted_of_refused ho fun a ha => ?_
        rcases List.mem_append.mp ha with hbefore | hrest
        · exact hhelp a (List.mem_append_left _ hbefore)
        rcases List.mem_cons.mp hrest with rfl | hmem
        · exact ⟨hne "-h" (by cases k <;> decide), hne "--help" (by cases k <;> decide)⟩
        · exact hhelp a (List.mem_append_right _ hmem)
      cases refusal <;> first | rfl | exact absurd rfl hwanted
    refine ⟨refusal, rfl, if_pos hfailure, fun timing fs hload => ?_⟩
    rw [run, hload, ho]

/-! ## The law -/

/-- A text that says a number is read as this number. -/
theorem Says.reads {k : NumberOption} {text : Bytes} {n : Nat} (h : k.Says text n) :
    k.Reads text n := by
  refine ⟨?_, ⟨false, n, h.value ▸ .of_digits h.digits, h.bound, ?_⟩, h.least⟩
  · rintro ⟨-, hsign⟩
    have hdigit : ∀ b, text.head? = some b → isDigit b = true :=
      fun b hb => h.digits.2 b (List.mem_of_mem_head? hb)
    rcases hsign with hminus | hplus
    · cases hdigit 45 hminus
    · cases hdigit 43 hplus
  · unfold wrap
    split <;> rfl

/-- Digits that are read as a number in range say this number. -/
theorem Reads.toSays {k : NumberOption} {text : Bytes} {n : Nat} (h : k.Reads text n)
    (hdigits : Json.Digits text) : k.Says text n := by
  obtain ⟨negative, m, hreads, hbound, hwrap⟩ := h.number
  obtain ⟨rfl, rfl⟩ := hreads.unique (.of_digits hdigits)
  have hvalue : Number.ofDigits text = n := by
    rw [← hwrap, wrap]
    split <;> rfl
  exact ⟨hdigits, hvalue, h.least, hvalue ▸ hbound⟩

/-- The law holds of all texts but those that slip through. -/
theorem checked_iff (k : NumberOption) (text : Bytes) : k.Checked text ↔ ¬ k.Slips text := by
  constructor
  · rintro hlaw ⟨hdigits, n, hreads⟩
    -- One list of arguments for which the text is not refused is enough.
    have hafter : ∀ a ∈ [ascii "f"], ¬ ascii k.flag <+: a := by cases k <;> decide
    have hhelp : ∀ a ∈ [] ++ [ascii "f"], a ≠ ascii "-h" ∧ a ≠ ascii "--help" := by decide
    let load (path : Bytes) : Except ConfigFault Config := .error (.unreadable path [])
    obtain ⟨o, ho⟩ : ∃ o, ∀ load,
        Options.ofArguments load ([] ++ k.argument (ascii "1") :: [ascii "f"]) = .ok o := by
      cases k <;> exact ⟨_, Options.ofArguments_of_no_config (by decide) rfl⟩
    have haccepted := hreads.takes load [] [ascii "f"] o hafter (ho load)
    obtain ⟨refusal, hrefused, -⟩ :=
      hlaw.refuses (fun n hsays => hdigits hsays.digits) load [] [ascii "f"] hhelp hafter
    cases haccepted.symm.trans hrefused
  · intro hslips
    refine ⟨fun n hsays => hsays.reads.takes, fun hnone => refuses_of_not_reads fun n hreads => ?_⟩
    by_cases hdigits : Json.Digits text
    · exact hnone n (hreads.toSays hdigits)
    · exact hslips ⟨hdigits, n, hreads⟩

/-- A negative number behind a blank is taken as a limit, and as the largest one that there is. -/
theorem negative_behind_blank :
    ¬ maxLineBytes.Checked (ascii " -1") ∧
      ∀ load, Options.ofArguments load [ascii "--max-line-bytes= -1", ascii "f"] =
        .ok {
          mode := .count, encoding := none, compressed := none, chunkBytes := 65536,
          maxLineBytes := 0xffffffffffffffff, reportRoot := [], naming := .canonicalPath,
          slugLength := 12, files := [ascii "f"] } := by
  have haccepted : ∀ load, Options.ofArguments load [ascii "--max-line-bytes= -1", ascii "f"] =
      .ok {
        mode := .count, encoding := none, compressed := none, chunkBytes := 65536,
        maxLineBytes := 0xffffffffffffffff, reportRoot := [], naming := .canonicalPath,
        slugLength := 12, files := [ascii "f"] } :=
    Options.ofArguments_of_no_config (by decide) (by decide +kernel)
  refine ⟨fun hlaw => ?_, haccepted⟩
  have hnone : ∀ n, ¬ maxLineBytes.Says (ascii " -1") n := by
    intro n hsays
    cases hsays.digits.2 32 (by decide)
  obtain ⟨refusal, hrefused, -⟩ := hlaw.refuses hnone (fun path => .error (.unreadable path [])) []
    [ascii "f"] (by decide) (by decide)
  cases (haccepted _).symm.trans hrefused

end NumberOption

end TextLines
