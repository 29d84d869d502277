import TextLines.Gzip.Source
import TextLines.Proofs.Gzip.Format
import TextLines.Proofs.Source.Delivery

/-!
# Reading a gzip file in pieces

`GzipSource` takes a file block by block and hands out as much at a time as it is asked for.
`Unpacks` says what the file holds without any of this. Here the two are put together.

`Owes s text ending` is the invariant of a source: what it has not handed out yet is `text`, and
`ending` comes after that. It is stated for the bits at hand together with those in the file, so a
block may end anywhere. `run_handed` is the induction over the loop of a read: a read gives as much
of the text as was asked for (`Handed`), and less only at the end of the last member. A read that
finds the file damaged or cut off gives nothing, and nothing is given ever after (`Failed`).

So a source whose file is complete delivers the text (`delivers`), and each of its reads is known to
the byte (`read_complete`).
-/

namespace TextLines

open Gzip (Bits Member Ending Unpacks)

/-- What a source over the file at `path` may fail with when it comes to the ending. -/
def Gzip.Ending.Explains (path : Bytes) : Ending → Error → Prop
  | .complete _, _ => False
  | .cut, e => e = .reading (.truncated path)
  | .damaged fault, e => e = .reading (.truncated path) ∨ e = .reading (.corrupt path fault)

namespace GzipSource

variable {s s' : GzipSource} {text front : Bytes} {ending : Ending} {room n : Nat}

/-- The source has `text` to hand out, and `ending` comes after that. -/
inductive Owes (s : GzipSource) (text : Bytes) (ending : Ending) : Prop where
  /-- It is inside a member. -/
  | inside (hopen : s.isOpen = true) (hdone : s.done = false) (htight : s.member.Tight s.bits)
      (hunpacks : Unpacks s.member (s.bits.append s.rest) text ending)
  /-- It is behind the last member. -/
  | finished (hdone : s.done = true) (htext : text = [])
      (hending : ending = .complete (s.bits.ahead ++ s.rest))

/-- The source has failed for good: it has used up a file that is not complete, or it has found the
damage. -/
structure Failed (s : GzipSource) (ending : Ending) : Prop where
  isOpen : s.isOpen = true
  done : s.done = false
  incomplete : ∀ behind, ending ≠ .complete behind
  cause : s.bits.ahead = [] ∧ s.rest = [] ∨
    ∃ fault, ending = .damaged fault ∧ s.member.phase = .broken fault

/-- What a read comes to that has `front` and then `room` bytes of `text` to give. -/
inductive Handed (path front : Bytes) (room : Nat) (text : Bytes) (ending : Ending) :
    Except Error Bytes × GzipSource → Prop where
  /-- So much of the text, or all of it if the last member has come to its end. -/
  | ok {s : GzipSource} (howes : s.Owes (text.drop room) ending)
      (hshort : text.length < room → s.done = true) :
      Handed path front room text ending (.ok (front ++ text.take room), s)
  /-- A failure. -/
  | failed {s : GzipSource} {e : Error} (hexplains : ending.Explains path e)
      (hfailed : s.Failed ending) : Handed path front room text ending (.error e, s)

/-! ## Fetching blocks -/

/-- A block that is fetched moves from the file to the bits. -/
theorem fill_append (s : GzipSource) : s.fill.bits.append s.fill.rest = s.bits.append s.rest := by
  simp [fill, Bits.append]

/-- A block has a first byte if there is one in the file. -/
theorem fill_head? (s : GzipSource) :
    s.fill.bits.ahead.head? = (s.bits.ahead ++ s.rest).head? := by
  rcases hahead : s.bits.ahead with _ | ⟨b, ahead⟩
  · rcases hrest : s.rest with _ | ⟨b, rest⟩
    · simp [fill, Bits.append, hahead, hrest]
    · simp [fill, Bits.append, hahead, hrest, blockBytes]
  · simp [fill, Bits.append, hahead]

theorem fill_ahead_eq_nil (h : s.fill.bits.ahead = []) :
    s.bits.ahead = [] ∧ s.rest = [] ∧ s.fill.rest = [] := by
  have hhead := s.fill_head?
  rw [h, List.head?_nil] at hhead
  have hboth := List.append_eq_nil_iff.mp (List.head?_eq_none_iff.mp hhead.symm)
  exact ⟨hboth.1, hboth.2, by simp [fill, hboth.2]⟩

/-! ## The loop of a read -/

theorem length_emitted_le {m m' : Member} {bits rest : Bits} {emitted : Option UInt8}
    (h : m.step (0 < room) bits = .went m' emitted rest) : emitted.toList.length ≤ room := by
  cases room with
  | zero => simp [Member.step_emits_none (by simpa using h)]
  | succ room => cases emitted <;> simp

/-- There is no room for more. -/
theorem Handed.of_full (path front : Bytes) (howes : s.Owes text ending) :
    Handed path front 0 text ending (.ok front, s) := by
  have h : Handed path front 0 text ending (.ok (front ++ text.take 0), s) :=
    .ok howes (by simp)
  rwa [List.take_zero, List.append_nil] at h

/-- There is nothing more. -/
theorem Handed.of_done (path front : Bytes) (room : Nat) (howes : s.Owes [] ending)
    (hdone : s.done = true) : Handed path front room [] ending (.ok front, s) := by
  have hrest : s.Owes (([] : Bytes).drop room) ending := by rwa [List.drop_nil]
  have h : Handed path front room [] ending (.ok (front ++ [].take room), s) :=
    .ok hrest fun _ => hdone
  rwa [List.take_nil, List.append_nil] at h

/-- What a step gives is given in front of the rest. -/
theorem Handed.after_step {path : Bytes} {emitted : Option UInt8}
    {r : Except Error Bytes × GzipSource} (hle : emitted.toList.length ≤ room)
    (h : Handed path (front ++ emitted.toList) (room - emitted.toList.length) text ending r) :
    Handed path front room (emitted.toList ++ text) ending r := by
  cases h with
  | failed hexplains hfailed => exact .failed hexplains hfailed
  | ok howes hshort =>
    have htake : front ++ (emitted.toList ++ text).take room =
        front ++ emitted.toList ++ text.take (room - emitted.toList.length) := by
      rw [List.take_append, List.take_of_length_le hle, List.append_assoc]
    have hdrop : (emitted.toList ++ text).drop room = text.drop (room - emitted.toList.length) := by
      rw [List.drop_append, List.drop_of_length_le hle, List.nil_append]
    rw [← htake]
    refine .ok (hdrop ▸ howes) fun hlt => hshort ?_
    rw [List.length_append] at hlt
    omega

/-- Behind a complete member the bits at hand begin like the rest of the file. -/
theorem behindMember_bits {bits : Bits} {behind : Bytes}
    (h : bits.append s.rest = .ofBytes behind) :
    (s.behindMember bits).bits.append (s.behindMember bits).rest = .ofBytes behind ∧
      (s.behindMember bits).bits.hold = [] ∧
      (s.behindMember bits).bits.ahead.head? = behind.head? := by
  have hhold : bits.hold = [] := congrArg Bits.hold h
  have hahead : bits.ahead ++ s.rest = behind := congrArg Bits.ahead h
  unfold behindMember
  dsimp only
  by_cases hempty : bits.ahead = []
  · rw [hempty, List.isEmpty_nil, if_pos rfl]
    refine ⟨(fill_append _).trans h, hhold, ?_⟩
    rw [fill_head?]
    exact congrArg List.head? hahead
  · rw [List.isEmpty_eq_false_iff.mpr hempty, if_neg (by simp)]
    refine ⟨h, hhold, ?_⟩
    rw [← hahead]
    rw [List.head?_append, List.head?_eq_some_head hempty]
    rfl

theorem behindMember_state (s : GzipSource) (bits : Bits) :
    (s.behindMember bits).member = {} ∧ (s.behindMember bits).path = s.path ∧
      (s.behindMember bits).isOpen = s.isOpen ∧ (s.behindMember bits).done = s.done := by
  unfold behindMember
  dsimp only
  split <;> exact ⟨rfl, rfl, rfl, rfl⟩

/-- The end of a member is found where it is in the whole file. -/
theorem unpacks_behind {bits : Bits} (htight : s.member.Tight s.bits)
    (hunpacks : Unpacks s.member (s.bits.append s.rest) text ending)
    (hstep : s.member.step true s.bits = .ended bits) :
    ∃ behind, bits.append s.rest = .ofBytes behind ∧
      (behind.head? ≠ some 0x1f ∧ text = [] ∧ ending = .complete behind ∨
        behind.head? = some 0x1f ∧ Unpacks {} (.ofBytes behind) text ending) := by
  obtain ⟨rest', hstep', hrest'⟩ :=
    Member.step_ended_of_extends (Bits.extends_append s.bits s.rest) hstep
  obtain ⟨behind, hbehind, hcases⟩ := hunpacks.of_ended hstep'
  have hhold : bits.hold.length < 8 := htight.hold_lt (by rw [hstep]; rfl)
  refine ⟨behind, Bits.eq_ofBytes hhold ?_, hcases⟩
  rw [Bits.toList_append, ← hrest', hbehind]

/-- A source in front of another member owes what the rest of the file unpacks to. -/
theorem behindMember_unpacks {bits : Bits} {behind : Bytes}
    (hbehind : bits.append s.rest = .ofBytes behind)
    (hnext : Unpacks {} (.ofBytes behind) text ending) :
    (s.behindMember bits).member.Tight (s.behindMember bits).bits ∧
      Unpacks (s.behindMember bits).member
        ((s.behindMember bits).bits.append (s.behindMember bits).rest) text ending := by
  obtain ⟨hbits, hhold, -⟩ := behindMember_bits hbehind
  refine ⟨.inl (by rw [hhold]; decide), ?_⟩
  rw [(s.behindMember_state bits).1, hbits]
  exact hnext

/-- The loop. -/
theorem run_handed (s : GzipSource) (out : Bytes) (hopen : s.isOpen = true) (hdone : s.done = false)
    (htight : s.member.Tight s.bits)
    (hunpacks : Unpacks s.member (s.bits.append s.rest) text ending) :
    Handed s.path out.reverse room text ending (run room s out) := by
  have hall := Bits.extends_append s.bits s.rest
  fun_induction run room s out generalizing text with
  | case1 room s out member emitted bits hs ih =>
    have hstep := Member.step_true_of_ne_full hs (by simp)
    obtain ⟨rest', hstep', hrest'⟩ := Member.step_went_of_extends hall hstep
    obtain ⟨text', rfl, hunpacks'⟩ := hunpacks.of_went hstep'
    have htight' : member.Tight bits := .inl (htight.hold_lt (by rw [hstep]; rfl))
    have hbits : rest'.toList = (bits.append s.rest).toList :=
      hrest'.trans (Bits.toList_append bits s.rest).symm
    have hhanded := ih hopen hdone htight' (hunpacks'.congr hbits) (Bits.extends_append bits s.rest)
    have hemitted : emitted.toList.reverse = emitted.toList := by cases emitted <;> rfl
    rw [List.reverse_append, hemitted] at hhanded
    exact hhanded.after_step (length_emitted_le hs)
  | case2 room s out hs =>
    obtain rfl : room = 0 := by
      rcases Nat.eq_zero_or_pos room with hroom | hroom
      · exact hroom
      · rw [decide_eq_true hroom] at hs
        exact absurd hs (Member.step_true_ne_full _ _)
    exact .of_full s.path out.reverse (.inside hopen hdone htight hunpacks)
  | case3 s out hs =>
    have hstep := Member.step_true_of_ne_full hs (by simp)
    have htight' : s.member.Tight s.bits.absorb :=
      .inr (Member.step_starved_of_toList (Bits.toList_absorb s.bits).symm hstep)
    have hbits : (s.bits.append s.rest).toList = (s.bits.absorb.append s.rest).toList := by
      rw [Bits.toList_append, Bits.toList_append, Bits.toList_absorb]
    have howes : s.absorb.Owes text ending :=
      .inside hopen hdone htight' (hunpacks.congr hbits)
    exact .of_full s.path out.reverse howes
  | case4 room s out hs hroom hr =>
    have hstep := Member.step_true_of_ne_full hs (by simp)
    have hnil : s.bits.append s.rest = s.bits := by simp [Bits.append, hr]
    rw [hnil] at hunpacks
    obtain ⟨rfl, rfl⟩ := hunpacks.of_starved hstep
    exact .failed rfl ⟨hopen, hdone, by simp, .inl ⟨rfl, hr⟩⟩
  | case5 room s out hs hroom hr ih =>
    have hstep := Member.step_true_of_ne_full hs (by simp)
    have htight' : s.member.Tight s.absorb.fill.bits :=
      .inr (Member.step_starved_of_toList (Bits.toList_absorb s.bits).symm hstep)
    have hbits : (s.bits.append s.rest).toList =
        (s.absorb.fill.bits.append s.absorb.fill.rest).toList := by
      rw [fill_append, Bits.toList_append, Bits.toList_append]
      show _ = s.bits.absorb.toList ++ _
      rw [Bits.toList_absorb]
      rfl
    exact ih hopen hdone htight' (hunpacks.congr hbits) (Bits.extends_append _ _)
  | case6 s out bits =>
    rename_i s'' hhead hs
    have hstep := Member.step_true_of_ne_full hs (by simp)
    obtain ⟨behind, hbehind, hcases⟩ := unpacks_behind htight hunpacks hstep
    have hhead' := (behindMember_bits hbehind).2.2
    obtain ⟨-, hnext⟩ := hcases.resolve_left fun h => h.1 (hhead'.symm.trans hhead)
    obtain ⟨htight', hunpacks'⟩ := behindMember_unpacks hbehind hnext
    obtain ⟨-, -, hopen', hdone'⟩ := s.behindMember_state bits
    have howes : s''.Owes text ending :=
      .inside (hopen'.trans hopen) (hdone'.trans hdone) htight' hunpacks'
    exact .of_full s.path out.reverse howes
  | case7 room s out bits hs =>
    rename_i s'' hhead hroom ih
    have hstep := Member.step_true_of_ne_full hs (by simp)
    obtain ⟨behind, hbehind, hcases⟩ := unpacks_behind htight hunpacks hstep
    have hhead' := (behindMember_bits hbehind).2.2
    obtain ⟨-, hnext⟩ := hcases.resolve_left fun h => h.1 (hhead'.symm.trans hhead)
    obtain ⟨htight', hunpacks'⟩ := behindMember_unpacks hbehind hnext
    obtain ⟨-, hpath, hopen', hdone'⟩ := s.behindMember_state bits
    rw [← hpath]
    exact ih (hopen'.trans hopen) (hdone'.trans hdone) htight' hunpacks' (Bits.extends_append _ _)
  | case8 room s out bits hs =>
    rename_i s'' hhead
    have hstep := Member.step_true_of_ne_full hs (by simp)
    obtain ⟨behind, hbehind, hcases⟩ := unpacks_behind htight hunpacks hstep
    obtain ⟨hbits, -, hhead'⟩ := behindMember_bits hbehind
    obtain ⟨-, rfl, rfl⟩ := hcases.resolve_right fun h => hhead (hhead'.trans h.1)
    have hahead : s''.bits.ahead ++ s''.rest = behind := congrArg Bits.ahead hbits
    have howes : ({ s'' with done := true } : GzipSource).Owes [] (.complete behind) :=
      .finished rfl rfl (by rw [hahead])
    exact .of_done s.path out.reverse room howes rfl
  | case9 room s out fault bits hs =>
    have hstep := Member.step_true_of_ne_full hs (by simp)
    obtain ⟨rest', hstep'⟩ := Member.step_fault_of_extends hall hstep
    obtain ⟨rfl, rfl⟩ := hunpacks.of_fault hstep'
    exact .failed (.inr rfl) ⟨hopen, hdone, by simp, .inr ⟨fault, rfl, rfl⟩⟩

theorem run_of_fault {fault : Gzip.Fault} {bits : Bits}
    (h : s.member.step (0 < room) s.bits = .fault fault bits) (out : Bytes) :
    run room s out = (.error (.reading (.corrupt s.path fault)),
      { s with member := { s.member with phase := .broken fault }, bits }) := by
  rw [run]
  split <;> rename_i hs <;> rw [h] at hs <;> cases hs
  rfl

/-! ## Reads -/

theorem explains_truncated (h : ∀ behind, ending ≠ .complete behind) (path : Bytes) :
    ending.Explains path (.reading (.truncated path)) := by
  cases ending with
  | complete behind => exact absurd rfl (h behind)
  | cut => exact rfl
  | damaged fault => exact .inl rfl

/-- A source that has nothing more to take apart is not at the end of a complete file. -/
theorem incomplete_of_dry (hahead : s.bits.ahead = []) (hrest : s.rest = [])
    (htight : s.member.Tight s.bits)
    (hunpacks : Unpacks s.member (s.bits.append s.rest) text ending) (behind : Bytes) :
    ending ≠ .complete behind := by
  have hbits : s.bits.append s.rest = ⟨s.bits.hold, []⟩ := by simp [Bits.append, hahead, hrest]
  rw [hbits] at hunpacks
  rcases htight with hhold | hstarved
  · refine hunpacks.ending_of_size_lt ?_ behind
    show s.bits.hold.length + 8 * 0 < 32
    omega
  · obtain ⟨-, rfl⟩ := hunpacks.of_starved hstarved
    simp

/-- The source as a read begins: with a block at hand, if there is one. -/
def ready (s : GzipSource) : GzipSource :=
  if s.bits.ahead.isEmpty then s.fill else s

theorem ready_eq (s : GzipSource) : s.ready = s.fill ∨ s.ready = s := by
  unfold ready
  split
  · exact .inl rfl
  · exact .inr rfl

theorem ready_dry (h : s.ready.bits.ahead = []) :
    s.bits.ahead = [] ∧ s.rest = [] ∧ s.ready.rest = [] := by
  unfold ready at h ⊢
  by_cases hahead : s.bits.ahead = []
  · rw [hahead, List.isEmpty_nil, if_pos rfl] at h ⊢
    obtain ⟨-, hrest, hfill⟩ := fill_ahead_eq_nil h
    exact ⟨rfl, hrest, hfill⟩
  · rw [List.isEmpty_eq_false_iff.mpr hahead, if_neg (by simp)] at h
    exact absurd h hahead

@[simp] theorem ready_isOpen (s : GzipSource) : s.ready.isOpen = s.isOpen := by
  rcases s.ready_eq with h | h <;> rw [h]
  rfl

@[simp] theorem ready_done (s : GzipSource) : s.ready.done = s.done := by
  rcases s.ready_eq with h | h <;> rw [h]
  rfl

@[simp] theorem ready_path (s : GzipSource) : s.ready.path = s.path := by
  rcases s.ready_eq with h | h <;> rw [h]
  rfl

@[simp] theorem ready_member (s : GzipSource) : s.ready.member = s.member := by
  rcases s.ready_eq with h | h <;> rw [h]
  rfl

theorem ready_append (s : GzipSource) :
    s.ready.bits.append s.ready.rest = s.bits.append s.rest := by
  rcases s.ready_eq with h | h <;> rw [h]
  exact s.fill_append

theorem ready_tight (h : s.member.Tight s.bits) : s.ready.member.Tight s.ready.bits := by
  rcases s.ready_eq with hs | hs <;> rw [hs] <;> exact h

theorem read_eq (n : Nat) (s : GzipSource) :
    s.read n = if !s.isOpen || s.done || n = 0 then (.ok [], s)
      else if s.ready.bits.ahead.isEmpty then (.error (.reading (.truncated s.path)), s.ready)
      else run (min n maxRead) s.ready [] := by
  rw [← s.ready_path]
  rfl

theorem read_of_open (hopen : s.isOpen = true) (hdone : s.done = false) (hn : 0 < n) :
    s.read n = if s.ready.bits.ahead.isEmpty then
      (.error (.reading (.truncated s.path)), s.ready) else run (min n maxRead) s.ready [] := by
  rw [read_eq, hopen, hdone, decide_eq_false (by omega)]
  rfl

theorem read_handed (h : s.Owes text ending) (hn : 0 < n) :
    Handed s.path [] (min n maxRead) text ending (s.read n) := by
  cases h with
  | finished hdone htext hending =>
    subst htext
    have hread : s.read n = (.ok [], s) := by simp [read, hdone]
    rw [hread]
    exact .of_done s.path [] (min n maxRead) (.finished hdone rfl hending) hdone
  | inside hopen hdone htight hunpacks =>
    rw [read_of_open hopen hdone hn]
    by_cases hdry : s.ready.bits.ahead = []
    · obtain ⟨hahead, hrest, hrest'⟩ := ready_dry hdry
      have hincomplete := incomplete_of_dry hahead hrest htight hunpacks
      rw [hdry, List.isEmpty_nil, if_pos rfl]
      exact .failed (explains_truncated hincomplete s.path)
        ⟨by simp [hopen], by simp [hdone], hincomplete, .inl ⟨hdry, hrest'⟩⟩
    · rw [List.isEmpty_eq_false_iff.mpr hdry, if_neg (by simp), ← s.ready_path]
      apply run_handed s.ready [] (by simp [hopen]) (by simp [hdone]) (ready_tight htight)
      rw [ready_member, ready_append]
      exact hunpacks

/-- Where a read has failed every later read fails. -/
theorem Failed.read (h : s.Failed ending) (hn : 0 < n) :
    ∃ e s', s.read n = (.error e, s') ∧ ending.Explains s.path e ∧ s'.Failed ending ∧
      s'.path = s.path := by
  obtain ⟨hopen, hdone, hincomplete, hcause⟩ := h
  have hopen' : s.ready.isOpen = true := by rw [ready_isOpen, hopen]
  have hdone' : s.ready.done = false := by rw [ready_done, hdone]
  rw [read_of_open hopen hdone hn]
  by_cases hdry : s.ready.bits.ahead = []
  · rw [hdry, List.isEmpty_nil, if_pos rfl]
    exact ⟨_, _, rfl, explains_truncated hincomplete s.path,
      ⟨hopen', hdone', hincomplete, .inl ⟨hdry, (ready_dry hdry).2.2⟩⟩, s.ready_path⟩
  · rw [List.isEmpty_eq_false_iff.mpr hdry, if_neg (by simp)]
    rcases hcause with ⟨hahead, hrest⟩ | ⟨fault, rfl, hphase⟩
    · refine absurd ?_ hdry
      rcases s.ready_eq with h | h <;> rw [h]
      · simp [fill, Bits.append, hahead, hrest]
      · exact hahead
    · have hbroken : s.ready.member.phase = .broken fault := by rw [ready_member, hphase]
      have hstep : s.ready.member.step (0 < min n maxRead) s.ready.bits =
          .fault fault s.ready.bits := by
        simp only [Member.step, hbroken]
      exact ⟨_, _, run_of_fault hstep [], .inr (by rw [ready_path]),
        ⟨hopen', hdone', hincomplete, .inr ⟨fault, rfl, rfl⟩⟩, s.ready_path⟩

/-! ## The file -/

theorem fill_file (s : GzipSource) :
    s.fill.path = s.path ∧ s.fill.served + s.fill.rest.length = s.served + s.rest.length := by
  refine ⟨rfl, ?_⟩
  simp only [fill, List.splitAt_eq, List.length_take, List.length_drop]
  omega

theorem behindMember_file (s : GzipSource) (bits : Bits) :
    (s.behindMember bits).served + (s.behindMember bits).rest.length =
      s.served + s.rest.length := by
  unfold behindMember
  dsimp only
  split
  · exact (fill_file _).2
  · rfl

/-- What has been read from the file and what has not are the file. -/
theorem run_file (room : Nat) (s : GzipSource) (out : Bytes) :
    (run room s out).2.path = s.path ∧
      (run room s out).2.served + (run room s out).2.rest.length = s.served + s.rest.length := by
  fun_induction run room s out with
  | case1 room s out member emitted bits hs ih => exact ih
  | case2 | case3 | case4 | case9 => exact ⟨rfl, rfl⟩
  | case5 room s out hs hroom hr ih =>
    obtain ⟨hpath, hsum⟩ := fill_file s.absorb
    exact ⟨ih.1.trans hpath, ih.2.trans hsum⟩
  | case6 | case8 => exact ⟨(behindMember_state _ _).2.1, behindMember_file _ _⟩
  | case7 room s out bits hs s'' hhead hroom ih =>
    exact ⟨ih.1.trans (behindMember_state _ _).2.1, ih.2.trans (behindMember_file _ _)⟩

theorem read_file (n : Nat) (s : GzipSource) :
    (s.read n).2.path = s.path ∧
      (s.read n).2.served + (s.read n).2.rest.length = s.served + s.rest.length := by
  have hready : s.ready.served + s.ready.rest.length = s.served + s.rest.length := by
    rcases s.ready_eq with h | h <;> rw [h]
    exact s.fill_file.2
  rw [read_eq]
  split
  · exact ⟨rfl, rfl⟩
  · split
    · exact ⟨s.ready_path, hready⟩
    · obtain ⟨hpath, hsum⟩ := run_file (min n maxRead) s.ready []
      exact ⟨hpath.trans s.ready_path, hsum.trans hready⟩

/-! ## Opening -/

/-- A file that is opened has had its first block read. -/
theorem eq_fill_of_ofPath {fs : Files.FileSystem} {path bytes : Bytes}
    (hs : ofPath fs path = .ok s) (hfile : fs.openFile path = .ok (.content bytes)) :
    s = fill { path, rest := bytes } := by
  rw [ofPath, hfile] at hs
  dsimp only at hs
  repeat' split at hs
  all_goals cases hs
  rfl

/-- The file that is opened is the one that is read. -/
theorem owes_of_ofPath {fs : Files.FileSystem} {path bytes : Bytes}
    (hs : ofPath fs path = .ok s) (hfile : fs.openFile path = .ok (.content bytes))
    (h : Unpacks {} (.ofBytes bytes) text ending) :
    s.Owes text ending ∧ s.path = path ∧ s.served + s.rest.length = bytes.length := by
  obtain rfl := eq_fill_of_ofPath hs hfile
  obtain ⟨hpath, hsum⟩ := fill_file { path, rest := bytes }
  refine ⟨.inside rfl rfl (.inl (Nat.succ_pos 7)) ?_, hpath, hsum.trans (Nat.zero_add _)⟩
  rw [fill_append]
  exact h

/-- A file that cannot be opened is refused as such. -/
theorem isOpening_of_ofPath {fs : Files.FileSystem} {path bytes : Bytes} {e : Error}
    (hs : ofPath fs path = .error e) (hfile : fs.openFile path = .ok (.content bytes)) :
    ∃ fault, e = .opening path fault := by
  rw [ofPath, hfile] at hs
  dsimp only at hs
  repeat' split at hs
  all_goals cases hs
  all_goals exact ⟨_, rfl⟩

/-- A file that begins with the first ten bytes of a member can be opened. -/
theorem exists_ofPath {fs : Files.FileSystem} {path bytes : Bytes} {p : Gzip.Packed}
    (hfile : fs.openFile path = .ok (.content bytes)) (hbegins : p.bytes.take 10 <+: bytes) :
    ∃ s, ofPath fs path = .ok s := by
  obtain ⟨flags, rest, hp, hflags, hlen⟩ := p.bytes_eq
  obtain ⟨behind, hbehind⟩ := hbegins
  have hbytes : bytes = 0x1f :: 0x8b :: 8 :: flags :: (rest.take 6 ++ behind) := by
    rw [← hbehind, hp]
    rfl
  have hahead : (fill { path, rest := bytes }).bits.ahead =
      0x1f :: 0x8b :: 8 :: flags :: (rest.take 6 ++ behind).take 65532 := by
    rw [hbytes]
    simp [fill, Bits.append, blockBytes]
  have hblock : ¬ ((rest.take 6 ++ behind).take 65532).length < 6 := by
    rw [List.length_take, List.length_append, List.length_take]
    omega
  have hflags' : ¬ 32 ≤ flags := UInt8.not_le.mpr hflags
  refine ⟨fill { path, rest := bytes }, ?_⟩
  rw [ofPath, hfile]
  dsimp only
  rw [hahead]
  simp only [hblock, hflags', if_false, ne_eq, not_true_eq_false]

/-! ## A complete file -/

/-- Reads of a source over a complete file give the next of the text, as much as is asked for. -/
theorem read_of_complete {behind : Bytes} (h : s.Owes text (.complete behind)) (hn : 0 < n) :
    (s.read n).1 = .ok (text.take (min n maxRead)) ∧
      (s.read n).2.Owes (text.drop (min n maxRead)) (.complete behind) ∧
      (text.length < min n maxRead → (s.read n).2.done = true) := by
  have hhanded := read_handed h hn
  generalize s.read n = r at hhanded
  cases hhanded with
  | ok howes hshort => exact ⟨rfl, howes, hshort⟩
  | failed hexplains => exact hexplains.elim

/-- A read of a complete file gives nothing only behind the last member. -/
theorem rest_of_read_nil {behind : Bytes} (h : s.Owes text (.complete behind)) (hn : 0 < n)
    (hend : (s.read n).1 = .ok []) : (s.read n).2.rest <:+ behind := by
  obtain ⟨hpiece, howes, hdone⟩ := read_of_complete h hn
  have hmin : 0 < min n maxRead := Nat.lt_min.mpr ⟨hn, by decide⟩
  have htext : text = [] :=
    (List.take_eq_nil_iff.mp (Except.ok.inj (hpiece.symm.trans hend))).resolve_left
      (Nat.ne_of_gt hmin)
  cases howes with
  | inside hopen hnot =>
    rw [hdone (htext ▸ hmin)] at hnot
    cases hnot
  | finished _ _ hending =>
    rw [Gzip.Ending.complete.inj hending]
    exact List.suffix_append _ _

/-- The reads respect what a source over a complete file owes. -/
theorem delivery_owes (behind : Bytes) :
    Source.Delivery (fun _ => False) fun (s : GzipSource) text =>
      s.Owes text (.complete behind) := by
  refine ⟨fun {s s' text piece n} h hn hr => ?_, fun {s s' text n e} h hn hr => ?_⟩
  · obtain ⟨hpiece, howes, -⟩ := read_of_complete h hn
    have hr' : s.read n = (.ok piece, s') := hr
    rw [hr'] at hpiece howes
    obtain rfl := Except.ok.inj hpiece
    refine ⟨_, (List.take_append_drop _ _).symm, fun hnil => ?_, howes⟩
    have hpos : min n maxRead ≠ 0 := Nat.ne_of_gt (Nat.lt_min.mpr ⟨hn, by decide⟩)
    rw [(List.take_eq_nil_iff.mp hnil).resolve_left hpos, List.drop_nil]
  · have hpiece := (read_of_complete h hn).1
    have hr' : s.read n = (.error e, s') := hr
    rw [hr'] at hpiece
    cases hpiece

theorem closesQuietly (s : GzipSource) : Source.ClosesQuietly s :=
  ⟨fun _ => True, trivial, fun _ _ => ⟨rfl, fun _ => trivial⟩⟩

end GzipSource

end TextLines
