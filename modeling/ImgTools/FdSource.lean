import ImgTools.ByteSource

/-!
# The source over a file descriptor

`FdSource` of `bytesource.rs` reads a file with `pread`, which may be
interrupted, fail, or transfer fewer bytes than asked for. What the system makes
of the calls is a schedule of events that the source carries along; behind its
end every call transfers all it can, so that a read needs no schedule to end.
-/

namespace ImgTools

open Exec

/-! ### The system call -/

/-- What becomes of one call. A `progress` of no bytes is one of a single byte. -/
inductive Event where
  | interrupted
  | failed (message : String)
  | progress (count : Nat)
deriving DecidableEq, Repr

/-- What a call returns. At the end of the file it transfers no bytes. -/
inductive Transfer where
  | interrupted
  | failed (message : String)
  | bytes (data : List UInt8)
deriving DecidableEq, Repr

def Event.transfer (content : List UInt8) (request position : Nat) : Event → Transfer
  | .interrupted => .interrupted
  | .failed message => .failed message
  | .progress count => .bytes ((content.drop position).take (min (max count 1) request))

/-- What the documentation of `pread` allows: the right bytes, no more than asked
    for, and none only at the end of the file. -/
def Transfer.Allowed (content : List UInt8) (request position : Nat) : Transfer → Prop
  | .interrupted => True
  | .failed _ => True
  | .bytes data => data <+: content.drop position ∧ data.length ≤ request ∧
      (data = [] → content.length ≤ position)

/-- The events are all that `pread` may do, and nothing else. -/
theorem Event.transfer_iff {content : List UInt8} {request position : Nat} (hrequest : 0 < request)
    (transfer : Transfer) :
    (∃ event : Event, event.transfer content request position = transfer) ↔
      transfer.Allowed content request position := by
  constructor
  · rintro ⟨event, rfl⟩
    cases event with
    | interrupted => trivial
    | failed message => trivial
    | progress count =>
      refine ⟨List.take_prefix _ _, ?_, ?_⟩
      · rw [List.length_take]
        omega
      · intro hnil
        have hlength := congrArg List.length hnil
        rw [List.length_take, List.length_drop, List.length_nil] at hlength
        omega
  · intro hallowed
    cases transfer with
    | interrupted => exact ⟨.interrupted, rfl⟩
    | failed message => exact ⟨.failed message, rfl⟩
    | bytes data =>
      obtain ⟨hinitial, hle, hnil⟩ := hallowed
      refine ⟨.progress data.length, congrArg Transfer.bytes ?_⟩
      rcases List.eq_nil_or_concat data with rfl | ⟨front, last, rfl⟩
      · rw [List.drop_eq_nil_of_le (hnil rfl), List.take_nil]
      · have hcount : min (max (front.concat last).length 1) request =
            (front.concat last).length := by
          simp only [List.length_concat] at hle ⊢
          omega
        rw [hcount]
        exact (List.prefix_iff_eq_take.mp hinitial).symm

structure Device where
  content : List UInt8
  schedule : List Event
deriving DecidableEq, Repr

def Device.pread (self : Device) (request position : Nat) : Transfer × Device :=
  match self.schedule with
  | [] => (Event.transfer self.content request position (.progress request), self)
  | event :: schedule =>
    (event.transfer self.content request position, { self with schedule := schedule })

/-! ### The source -/

structure FdSource (B : Build) where
  fd : Int32
  size : UInt64
  device : Device
deriving DecidableEq

/-- `libc::off_t::try_from(n).ok()`, for a signed type as wide as `usize`. -/
def Build.offFrom (B : Build) (n : Nat) : Option Nat :=
  if n < 2 ^ (B.usizeBits - 1) then some n else none

def Build.zeroed (B : Build) (n : Nat) : Outcome (List UInt8) :=
  if n ≤ B.isizeMax then return List.replicate n 0 else .panic .capacityOverflow

namespace FdSource

variable {B : Build}

def new (B : Build) (fd : Int32) (size : UInt64) (device : Device) :
    Except ByteSourceError (FdSource B) :=
  if fd < 0 then .error (.io "invalid file descriptor") else .ok ⟨fd, size, device⟩

structure Progress (B : Build) where
  self : FdSource B
  output : List UInt8
  done : Nat
deriving DecidableEq

def received (self : FdSource B) (output : List UInt8) (done : Nat) :
    Transfer → Outcome (Turn (Progress B) (Except ByteSourceError (List UInt8) × FdSource B))
  | .interrupted => return .next ⟨self, output, done⟩
  | .failed message => return .exit (.error (.io message), self)
  | .bytes [] => return .exit (.ok (output.take done), self)
  | .bytes data => do
    let output ← copyFromSlice output done (done + data.length) data
    let done ← (B.arith B.usizeBits).add done data.length
    return .next ⟨self, output, done⟩

def readTurn (offset : UInt64) (actual : Nat) (state : Progress B) :
    Outcome (Turn (Progress B) (Except ByteSourceError (List UInt8) × FdSource B)) := do
  if state.done < actual then
    match checkedAdd 64 offset.toNat state.done with
    | none => return .exit (.error .outOfRange, state.self)
    | some absolute =>
      match B.offFrom absolute with
      | none => return .exit (.error .outOfRange, state.self)
      | some position =>
        let (transfer, device) := state.self.device.pread (actual - state.done) position
        received { state.self with device := device } state.output state.done transfer
  else return .exit (.ok state.output, state.self)

/-- Every turn uses up an event or transfers a byte, so the loop ends within the budget. -/
def read (offset : UInt64) (length : Nat) :
    Reading (FdSource B) ByteSourceError (List UInt8) := do
  let self ← .ask id
  if self.size.toNat ≤ offset.toNat ∨ length = 0 then return []
  else
    -- the cast of a `u64` to `usize` keeps its low bits
    let actual := min (self.size.toNat - offset.toNat) length % 2 ^ B.usizeBits
    let output ← (B.zeroed actual : Outcome _)
    ⟨fun self => loop (readTurn offset actual) (self.device.schedule.length + actual + 1)
      ⟨self, output, 0⟩⟩

instance : ByteSource (FdSource B) where
  size self := self.size
  read := read

/-! ### What a read returns -/

section Spec

variable {offset : UInt64} {actual : Nat}

/-- The buffer of a read that is under way: its first `done` bytes are those of the file. -/
structure Filled (offset : UInt64) (actual : Nat) (state : Progress B) : Prop where
  done_le : state.done ≤ actual
  length_eq : state.output.length = actual
  available : state.done ≤ state.self.device.content.length - offset.toNat
  take_eq : state.output.take state.done =
    (state.self.device.content.drop offset.toNat).take state.done

/-- A transfer that adds bytes of the file behind those done. -/
theorem Filled.received {state : Progress B} (h : Filled offset actual state)
    (hactual : actual ≤ B.isizeMax) {data : List UInt8} (hsome : data ≠ [])
    (hdata : data <+: state.self.device.content.drop (offset.toNat + state.done))
    (hlength : data.length ≤ actual - state.done) :
    ∃ state', FdSource.received state.self state.output state.done (.bytes data) =
        .done (.next state') ∧ state'.self = state.self ∧
      state'.done = state.done + data.length ∧ Filled offset actual state' := by
  obtain ⟨self, output, done⟩ := state
  obtain ⟨hdone, houtput, havailable, htake⟩ := h
  dsimp only at hdone houtput havailable htake hdata hlength
  have hmax := B.isizeMax_lt
  have hinitial := hdata.length_le
  rw [List.length_drop] at hinitial
  have hcopy : copyFromSlice output done (done + data.length) data =
      .done (output.take done ++ data ++ output.drop (done + data.length)) :=
    copyFromSlice_of_le (Nat.le_add_right done data.length) (by omega) (by omega)
  have hadd : (B.arith B.usizeBits).add done data.length = .done (done + data.length) :=
    Arith.add_of_fits (Build.arith_fits.mpr (by omega))
  have hrun : FdSource.received self output done (.bytes data) =
      .done (.next ⟨self, output.take done ++ data ++ output.drop (done + data.length),
        done + data.length⟩) := by
    cases data with
    | nil => exact absurd rfl hsome
    | cons byte rest =>
      rw [FdSource.received, hcopy, Outcome.done_bind, hadd]
      · rfl
      · exact fun h => absurd h (by simp)
  have hpositive : 0 < data.length := List.length_pos_iff.mpr hsome
  have hbehind : done + data.length ≤ self.device.content.length - offset.toNat := by omega
  refine ⟨_, hrun, rfl, rfl, by show done + data.length ≤ actual; omega, ?_, hbehind, ?_⟩
  · simp only [List.length_append, List.length_take, List.length_drop]
    omega
  · have hfront : (output.take done ++ data).length = done + data.length := by
      rw [List.length_append, List.length_take]
      omega
    have hnext : data = ((self.device.content.drop offset.toNat).drop done).take data.length := by
      rw [List.drop_drop]
      exact List.prefix_iff_eq_take.mp hdata
    show (output.take done ++ data ++ output.drop (done + data.length)).take (done + data.length) =
      (self.device.content.drop offset.toNat).take (done + data.length)
    rw [← hfront, List.take_left, hfront, List.take_add, ← hnext, htake]

/-- A successful call: it adds bytes, or the file has no more of them. -/
theorem Filled.progress {state : Progress B} (h : Filled offset actual state)
    (hactual : actual ≤ B.isizeMax) (hlt : state.done < actual) (count : Nat) :
    let answer := FdSource.received state.self state.output state.done
      (Event.transfer state.self.device.content (actual - state.done) (offset.toNat + state.done)
        (.progress count))
    (∃ state', answer = .done (.next state') ∧ state'.self = state.self ∧
      state.done < state'.done ∧ Filled offset actual state') ∨
    answer = .done (.exit (.ok ((state.self.device.content.drop offset.toNat).take actual),
      state.self)) := by
  intro answer
  by_cases hend : state.self.device.content.length ≤ offset.toNat + state.done
  · have hnil : Event.transfer state.self.device.content (actual - state.done)
        (offset.toNat + state.done) (.progress count) = .bytes [] := by
      rw [Event.transfer, List.drop_eq_nil_of_le hend, List.take_nil]
    have hall : (state.self.device.content.drop offset.toNat).take actual =
        state.output.take state.done := by
      have hlength : (state.self.device.content.drop offset.toNat).length ≤ state.done := by
        rw [List.length_drop]
        omega
      rw [h.take_eq, List.take_of_length_le hlength, List.take_of_length_le (by omega)]
    exact Or.inr (by simp only [answer, hnil, hall]; rfl)
  · have hallowed : Transfer.Allowed state.self.device.content (actual - state.done)
        (offset.toNat + state.done) (.bytes _) :=
      (Event.transfer_iff (Nat.sub_pos_of_lt hlt) _).mp ⟨.progress count, rfl⟩
    obtain ⟨hdata, hle, hnil⟩ := hallowed
    have hsome := mt hnil hend
    obtain ⟨state', hrun, hself, hdone, hfilled⟩ := h.received hactual hsome hdata hle
    have hpositive := List.length_pos_iff.mpr hsome
    exact Or.inl ⟨state', hrun, hself, by omega, hfilled⟩

def after (self : FdSource B) (rest : List Event) : FdSource B :=
  { self with device := { self.device with schedule := rest } }

theorem Filled.after {state : Progress B} (h : Filled offset actual state) (rest : List Event) :
    Filled offset actual { state with self := state.self.after rest } :=
  ⟨h.done_le, h.length_eq, h.available, h.take_eq⟩

/-- A turn whose position an `off_t` can hold makes one call. -/
theorem readTurn_of_lt {state : Progress B} (hlt : state.done < actual)
    (hposition : offset.toNat + state.done < 2 ^ (B.usizeBits - 1)) :
    readTurn offset actual state =
      received { state.self with device :=
          (state.self.device.pread (actual - state.done) (offset.toNat + state.done)).2 }
        state.output state.done
        (state.self.device.pread (actual - state.done) (offset.toNat + state.done)).1 := by
  have hbits : B.usizeBits - 1 ≤ 63 := Nat.sub_le_of_le_add B.usizeBits_le
  have hword : 2 ^ (B.usizeBits - 1) ≤ 2 ^ 63 := Nat.pow_le_pow_right (by decide) hbits
  have habsolute : checkedAdd 64 offset.toNat state.done = some (offset.toNat + state.done) :=
    if_pos (by omega)
  have hoff : B.offFrom (offset.toNat + state.done) = some (offset.toNat + state.done) :=
    if_pos (by omega)
  rw [readTurn, if_pos hlt]
  simp only [habsolute, hoff]

/-- A position that an `off_t` cannot hold ends the read before the call. -/
theorem readTurn_of_past {state : Progress B} (hlt : state.done < actual)
    (hposition : 2 ^ (B.usizeBits - 1) ≤ offset.toNat + state.done)
    (hword : offset.toNat + state.done < 2 ^ 64) :
    readTurn offset actual state = .done (.exit (.error .outOfRange, state.self)) := by
  have habsolute : checkedAdd 64 offset.toNat state.done = some (offset.toNat + state.done) :=
    if_pos hword
  have hoff : B.offFrom (offset.toNat + state.done) = none := if_neg (Nat.not_lt.mpr hposition)
  rw [readTurn, if_pos hlt]
  simp only [habsolute, hoff]
  rfl

/-- What a read comes to from a source: the bytes of the file, unless an event
    that it uses is a failure; the events behind those it used are left. -/
def Accounted (offset : UInt64) (actual : Nat) (self : FdSource B)
    (outcome : Except ByteSourceError (List UInt8) × FdSource B) : Prop :=
  ∃ used rest, self.device.schedule = used ++ rest ∧ outcome.2 = self.after rest ∧
    ((∀ message, .failed message ∉ used) →
      outcome.1 = .ok ((self.device.content.drop offset.toNat).take actual)) ∧
    ∀ message, .failed message ∈ used → outcome.1 = .error (.io message)

/-- An event that is no failure leaves the account to the events behind it. -/
theorem Accounted.cons {self : FdSource B} {event : Event} {schedule : List Event}
    (hschedule : self.device.schedule = event :: schedule)
    (hevent : ∀ message, event ≠ .failed message)
    {outcome : Except ByteSourceError (List UInt8) × FdSource B}
    (h : Accounted offset actual (self.after schedule) outcome) :
    Accounted offset actual self outcome := by
  obtain ⟨used, rest, hsplit, hself, hok, hfailed⟩ := h
  refine ⟨event :: used, rest, ?_, hself, fun hnone => ?_, fun message hmem => ?_⟩
  · rw [hschedule, List.cons_append, ← hsplit]
    rfl
  · exact hok fun message hmem => hnone message (List.mem_cons_of_mem _ hmem)
  · rcases List.mem_cons.mp hmem with heq | hmem
    · exact absurd heq.symm (hevent message)
    · exact hfailed message hmem

theorem Accounted.ok (self : FdSource B) :
    Accounted offset actual self
      (.ok ((self.device.content.drop offset.toNat).take actual), self) :=
  ⟨[], self.device.schedule, rfl, rfl, fun _ => rfl, fun _ hmem => absurd hmem List.not_mem_nil⟩

/-- **One turn of a read.** It leaves with a result that accounts for the events
    it used, or goes on with an event or bytes fewer to come. -/
theorem readTurn_spec (hactual : actual ≤ B.isizeMax)
    (hposition : offset.toNat + actual ≤ 2 ^ (B.usizeBits - 1)) (state : Progress B)
    (h : Filled offset actual state) :
    (∃ state', readTurn offset actual state = .done (.next state') ∧ Filled offset actual state' ∧
      state'.self.device.schedule.length + (actual - state'.done) <
        state.self.device.schedule.length + (actual - state.done) ∧
      ∀ outcome, Accounted offset actual state'.self outcome →
        Accounted offset actual state.self outcome) ∨
    ∃ outcome, readTurn offset actual state = .done (.exit outcome) ∧
      Accounted offset actual state.self outcome := by
  by_cases hlt : state.done < actual
  · rw [readTurn_of_lt hlt (by omega)]
    unfold Device.pread
    rcases hschedule : state.self.device.schedule with _ | ⟨event, schedule⟩
    · dsimp only
      rcases h.progress hactual hlt (actual - state.done) with
        ⟨state', hrun, hself, hmore, hfilled⟩ | hrun
      · refine Or.inl ⟨state', hrun, hfilled, ?_, ?_⟩
        · have hdone := hfilled.done_le
          rw [hself, hschedule]
          omega
        · rw [hself]
          exact fun _ houtcome => houtcome
      · exact Or.inr ⟨_, hrun, .ok state.self⟩
    · dsimp only
      cases event with
      | interrupted =>
        refine Or.inl ⟨_, rfl, h.after schedule, ?_, fun _ => .cons hschedule (by simp)⟩
        simp only [List.length_cons]
        omega
      | failed message =>
        refine Or.inr ⟨_, rfl, [.failed message], schedule, hschedule, rfl, ?_, ?_⟩
        · exact fun hnone => absurd List.mem_cons_self (hnone message)
        · intro message' hmem
          cases List.mem_singleton.mp hmem
          rfl
      | progress count =>
        rcases (h.after schedule).progress hactual hlt count with
          ⟨state', hrun, hself, hmore, hfilled⟩ | hrun
        · refine Or.inl ⟨state', hrun, hfilled, ?_, ?_⟩
          · have hdone := hfilled.done_le
            simp only [hself, after, List.length_cons]
            dsimp only at hmore
            omega
          · rw [hself]
            exact fun _ => .cons hschedule (by simp)
        · refine Or.inr ⟨_, hrun, ?_⟩
          exact .cons hschedule (by simp) (.ok (state.self.after schedule))
  · have hdone : state.done = actual := Nat.le_antisymm h.done_le (Nat.not_lt.mp hlt)
    have hall : state.output = (state.self.device.content.drop offset.toNat).take actual := by
      rw [← hdone, ← h.take_eq, List.take_of_length_le (by rw [h.length_eq, hdone])]
    refine Or.inr ⟨_, by rw [readTurn, if_neg hlt]; rfl, ?_⟩
    rw [hall]
    exact .ok state.self

theorem zeroed_of_le (h : actual ≤ B.isizeMax) :
    B.zeroed actual = .done (List.replicate actual 0) := if_pos h

theorem Filled.start (self : FdSource B) :
    Filled offset actual ⟨self, List.replicate actual 0, 0⟩ where
  done_le := Nat.zero_le _
  length_eq := List.length_replicate
  available := Nat.zero_le _
  take_eq := rfl

theorem read_of_some (self : FdSource B) {length : Nat}
    (hsome : ¬ (self.size.toNat ≤ offset.toNat ∨ length = 0))
    (hbuffer : min (self.size.toNat - offset.toNat) length ≤ B.isizeMax) :
    (read offset length).run self =
      loop (readTurn offset (min (self.size.toNat - offset.toNat) length))
        (self.device.schedule.length + min (self.size.toNat - offset.toNat) length + 1)
        ⟨self, List.replicate (min (self.size.toNat - offset.toNat) length) 0, 0⟩ := by
  have hmax := B.isizeMax_lt
  rw [read, Reading.bind_of_ok (Reading.ask_run id self)]
  dsimp only [id]
  rw [if_neg hsome, Nat.mod_eq_of_lt (by omega), zeroed_of_le hbuffer,
    Reading.bind_of_ok (Reading.lift_run _ _)]

/-- **What a read returns**, when the positions fit the `off_t` and the buffer an allocation. -/
theorem read_spec (self : FdSource B) (offset : UInt64) (length : Nat)
    (hreach : min self.size.toNat (offset.toNat + length) ≤ 2 ^ (B.usizeBits - 1))
    (hbuffer : min (self.size.toNat - offset.toNat) length ≤ B.isizeMax) :
    ∃ outcome, (read offset length).run self = .done outcome ∧
      Accounted offset (min (self.size.toNat - offset.toNat) length) self outcome := by
  by_cases hnothing : self.size.toNat ≤ offset.toNat ∨ length = 0
  · have hzero : min (self.size.toNat - offset.toNat) length = 0 := by omega
    refine ⟨(.ok [], self), ?_, hzero ▸ .ok self⟩
    rw [read, Reading.bind_of_ok (Reading.ask_run id self)]
    exact congrArg (fun code : Reading _ _ _ => code.run self) (if_pos hnothing)
  · rw [read_of_some self hnothing hbuffer]
    exact loop_spec _ (Filled offset _)
      (fun state => state.self.device.schedule.length + (_ - state.done))
      (fun state => Accounted offset _ state.self) (readTurn_spec hbuffer (by omega)) _ _
      (.start self) (by dsimp only; omega)

section Reach

variable (fd : Int32) (size offset : UInt64) {content : List UInt8}
  (hsize : size.toNat = content.length) {length : Nat} (hpos : 0 < length)
  (hbuffer : length ≤ B.isizeMax) (hinside : offset.toNat + length ≤ content.length)

include hsize hpos hbuffer hinside

theorem read_of_inside (schedule : List Event) :
    (read offset length).run (⟨fd, size, ⟨content, schedule⟩⟩ : FdSource B) =
      loop (readTurn offset length) (schedule.length + length + 1)
        ⟨⟨fd, size, ⟨content, schedule⟩⟩, List.replicate length 0, 0⟩ := by
  have hactual : min (size.toNat - offset.toNat) length = length := by omega
  have hsome : ¬ (size.toNat ≤ offset.toNat ∨ length = 0) := by omega
  rw [read_of_some ⟨fd, size, ⟨content, schedule⟩⟩ hsome (by dsimp only; omega), hactual]

/-- A read that starts behind the reach of an `off_t` makes no call. -/
theorem read_behind_reach (hpast : 2 ^ (B.usizeBits - 1) ≤ offset.toNat)
    (schedule : List Event) :
    (read offset length).run (⟨fd, size, ⟨content, schedule⟩⟩ : FdSource B) =
      .done (.error .outOfRange, ⟨fd, size, ⟨content, schedule⟩⟩) := by
  have hword := size.toNat_lt
  rw [read_of_inside fd size offset hsize hpos hbuffer hinside]
  exact loop_exit _ (readTurn_of_past hpos hpast (by dsimp only; omega))

/-- A read of bytes behind the reach of an `off_t` is out of range on a schedule
    that transfers the bytes before them first. -/
theorem read_out_of_range (hpast : 2 ^ (B.usizeBits - 1) < offset.toNat + length) :
    ∃ schedule : List Event, (∀ message, .failed message ∉ schedule) ∧ ∃ self',
      (read offset length).run (⟨fd, size, ⟨content, schedule⟩⟩ : FdSource B) =
        .done (.error .outOfRange, self') := by
  have hword := size.toNat_lt
  by_cases hstart : 2 ^ (B.usizeBits - 1) ≤ offset.toNat
  · exact ⟨[], fun _ hmem => absurd hmem List.not_mem_nil, _,
      read_behind_reach fd size offset hsize hpos hbuffer hinside hstart []⟩
  · obtain ⟨count, hcount⟩ : ∃ count, offset.toNat + count = 2 ^ (B.usizeBits - 1) :=
      ⟨2 ^ (B.usizeBits - 1) - offset.toNat, by omega⟩
    refine ⟨[.progress count], by simp, ⟨fd, size, ⟨content, []⟩⟩, ?_⟩
    obtain ⟨data, hdata⟩ : ∃ data, data =
        (content.drop offset.toNat).take (min (max count 1) length) := ⟨_, rfl⟩
    have hlength : data.length = count := by
      rw [hdata, List.length_take, List.length_drop]
      omega
    have hsome : data ≠ [] := List.ne_nil_of_length_pos (by omega)
    have hempty : Filled offset length
        (⟨⟨fd, size, ⟨content, []⟩⟩, List.replicate length 0, 0⟩ : Progress B) := .start _
    obtain ⟨⟨self', output, done⟩, hturn, hself, hdone, -⟩ := hempty.received hbuffer hsome
      (hdata ▸ List.take_prefix _ _) (by dsimp only; omega)
    dsimp only at hself hdone
    have hfirst : readTurn offset length
        (⟨⟨fd, size, ⟨content, [.progress count]⟩⟩, List.replicate length 0, 0⟩ : Progress B) =
        .done (.next ⟨self', output, done⟩) := by
      rw [readTurn_of_lt hpos (by dsimp only; omega), ← hturn, hdata]
      rfl
    rw [read_of_inside fd size offset hsize hpos hbuffer hinside, List.length_singleton,
      Nat.add_comm 1 length, loop_next _ hfirst]
    refine loop_exit _ ?_
    rw [readTurn_of_past (by dsimp only; omega) (by dsimp only; omega) (by dsimp only; omega),
      hself]

end Reach

/-- The source claims the whole file, and no call on it fails. -/
structure Reads (content : List UInt8) (source : FdSource B) : Prop where
  content_eq : source.device.content = content
  size_eq : source.size.toNat = content.length
  quiet : ∀ message, .failed message ∉ source.device.schedule

/-- Reads of a whole file whose positions fit the `off_t`. -/
theorem returns_read {content : List UInt8} (hfile : content.length ≤ 2 ^ (B.usizeBits - 1))
    (offset : UInt64) (length : Nat)
    (hbuffer : min (content.length - offset.toNat) length ≤ B.isizeMax) :
    Reading.Returns (Reads (B := B) content) (ByteSource.read offset length)
      (.ok ((content.drop offset.toNat).take length)) := by
  rintro self ⟨rfl, hsize, hquiet⟩
  rw [← hsize] at hfile hbuffer
  obtain ⟨⟨result, self'⟩, hrun, used, rest, hschedule, hself, hok, -⟩ :=
    read_spec self offset length ((Nat.min_le_left _ _).trans hfile) hbuffer
  dsimp only at hself hok
  have hresult := hok fun message hmem => hquiet message (hschedule ▸ List.mem_append_left _ hmem)
  have hall : (self.device.content.drop offset.toNat).take
      (min (self.size.toNat - offset.toNat) length) =
      (self.device.content.drop offset.toNat).take length := by
    refine List.take_eq_take_iff.mpr ?_
    rw [List.length_drop, hsize]
    omega
  refine ⟨result, self', hrun, ?_, hresult.trans (congrArg Except.ok hall)⟩
  rw [hself]
  exact ⟨rfl, hsize, fun message hmem => hquiet message (hschedule ▸ List.mem_append_right _ hmem)⟩

end Spec

/-! ### Reads of a descriptor and reads of memory -/

theorem visible_eq (content : List UInt8) (size offset length : Nat) :
    (content.drop offset).take (min (size - offset) length) =
      (content.take (min (offset + length) (min size content.length))).drop offset := by
  rw [List.drop_take]
  refine List.take_eq_take_iff.mpr ?_
  rw [List.length_drop]
  omega

/-- **Descriptor reads equal memory reads under any schedule.** -/
theorem read_eq_memory (profile : Profile) (self : FdSource (.wide profile))
    (hsize : self.size.toNat ≤ 2 ^ 63 - 1) (offset : UInt64) (length : Nat) :
    ∃ result used rest, self.device.schedule = used ++ rest ∧
      (ByteSource.read offset length).run self = .done (result, self.after rest) ∧
      ((∀ message, .failed message ∉ used) →
        result = .ok ((self.device.content.take (min (offset.toNat + length)
          (min self.size.toNat self.device.content.length))).drop offset.toNat)) ∧
      (∀ message, .failed message ∈ used → result = .error (.io message)) ∧
      (self.size.toNat = self.device.content.length → (∀ message, .failed message ∉ used) →
        ∀ memory : MemorySource (.wide profile), memory.bytes = self.device.content →
          (ByteSource.read offset length).run memory = .done (result, memory)) := by
  have hbuffer : min (self.size.toNat - offset.toNat) length ≤ (Build.wide profile).isizeMax := by
    rw [Build.isizeMax_wide]
    omega
  have hreach : min self.size.toNat (offset.toNat + length) ≤ 2 ^ 63 := by omega
  obtain ⟨⟨result, self'⟩, hrun, used, rest, hschedule, hself, hok, hfailed⟩ :=
    read_spec self offset length hreach hbuffer
  dsimp only at hself hok hfailed
  subst hself
  rw [visible_eq] at hok
  refine ⟨result, used, rest, hschedule, hrun, hok, hfailed, ?_⟩
  intro hwhole hnone memory hmemory
  obtain ⟨_, memory', hread, rfl, rfl⟩ := memory.returns_read offset length memory rfl
  rw [hread, hok hnone, hmemory, ← visible_eq, hwhole]
  refine congrArg (fun bytes => Outcome.done (Except.ok bytes, _)) (List.take_eq_take_iff.mpr ?_)
  rw [List.length_drop]
  omega

/-- Two bytes of a file of four, with two interruptions and a partial transfer. -/
theorem read_eq_memory_short :
    let self : FdSource (.wide .debug) :=
      ⟨3, 4, ⟨[1, 2, 3, 4], [.interrupted, .progress 1, .interrupted]⟩⟩
    self.size.toNat ≤ 2 ^ 63 - 1 ∧ ∃ result used rest, self.device.schedule = used ++ rest ∧
      (ByteSource.read 1 2).run self = .done (result, self.after rest) ∧ result = .ok [2, 3] := by
  intro self
  obtain ⟨result, used, rest, hschedule, hrun, hok, -, -⟩ :=
    read_eq_memory .debug self (by decide) 1 2
  refine ⟨by decide, result, used, rest, hschedule, hrun, hok ?_⟩
  intro message hmem
  have hall : Event.failed message ∈ self.device.schedule :=
    hschedule ▸ List.mem_append_left rest hmem
  simp [self] at hall

end FdSource

end ImgTools
