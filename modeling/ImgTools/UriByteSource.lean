import ImgTools.FdSource
import ImgTools.Kotlin

/-!
# The source over a document

`UriByteSource.kt`: a document is opened for reading, and its ranges are read through
a channel. A channel transfers fewer bytes than there is room for, or none, or
throws. `read_spec` accounts for the events of a read as that of the native source
does; a transfer of no bytes, after which this source gives up and the native one
goes on, is where the two differ.
-/

namespace ImgTools

open Exec Kotlin

/-! ### Buffers -/

/-- A buffer whose first `position` bytes are written. -/
structure ByteBuffer where
  array : List UInt8
  position : Nat
  position_le : position ≤ array.length

namespace ByteBuffer

def allocate (capacity : Nat) : ByteBuffer := ⟨List.replicate capacity 0, 0, Nat.zero_le _⟩

def remaining (buffer : ByteBuffer) : Nat := buffer.array.length - buffer.position

def put (buffer : ByteBuffer) (data : List UInt8) : ByteBuffer :=
  let data := data.take buffer.remaining
  { array := buffer.array.take buffer.position ++ data ++
      buffer.array.drop (buffer.position + data.length)
    position := buffer.position + data.length
    position_le := by
      have hle := buffer.position_le
      simp only [List.length_append, List.length_take, List.length_drop]
      omega }

def filled (buffer : ByteBuffer) : List UInt8 := buffer.array.take buffer.position

@[simp] theorem length_filled (buffer : ByteBuffer) : buffer.filled.length = buffer.position := by
  rw [filled, List.length_take, Nat.min_eq_left buffer.position_le]

@[simp] theorem allocate_filled (capacity : Nat) : (allocate capacity).filled = [] := rfl

@[simp] theorem length_allocate (capacity : Nat) : (allocate capacity).array.length = capacity :=
  List.length_replicate

theorem filled_put (buffer : ByteBuffer) (data : List UInt8) :
    (buffer.put data).filled = buffer.filled ++ data.take buffer.remaining := by
  have hfront :
      (buffer.filled ++ data.take buffer.remaining).length = (buffer.put data).position := by
    rw [List.length_append, length_filled]
    rfl
  rw [filled, ← hfront]
  exact List.take_left

theorem length_put (buffer : ByteBuffer) (data : List UInt8) :
    (buffer.put data).array.length = buffer.array.length := by
  have hle := buffer.position_le
  simp only [put, remaining, List.length_append, List.length_take, List.length_drop]
  omega

end ByteBuffer

/-! ### The source -/

inductive ChannelEvent where
  | thrown (e : Throwable)
  | progress (count : Nat)
deriving DecidableEq, Repr

structure UriByteSource where
  fileDescriptor : Int32
  statSize : Int64
  channelSize : Except Throwable Int64
  content : List UInt8
  schedule : List ChannelEvent

namespace UriByteSource

/-- What the resolver makes of the document is what it throws, or a source, or nothing. -/
def new : Except Throwable (Option UriByteSource) → Except Throwable UriByteSource
  | .error e => .error e
  | .ok none => .error ⟨some "The selected document cannot be opened for reading."⟩
  | .ok (some source) => .ok source

def size (self : UriByteSource) : Except Throwable Int64 :=
  if 0 ≤ self.statSize then .ok self.statSize else self.channelSize

def ChannelEvent.transfer (content : List UInt8) (request position : Nat) :
    ChannelEvent → Except Throwable (Option (List UInt8))
  | .thrown e => .error e
  | .progress count =>
    if content.length ≤ position then .ok none
    else .ok (some ((content.drop position).take (min count request)))

def readChannel (self : UriByteSource) (request position : Nat) :
    Except Throwable (Option (List UInt8)) × UriByteSource :=
  match self.schedule with
  | [] => (ChannelEvent.transfer self.content request position (.progress request), self)
  | event :: schedule =>
    (ChannelEvent.transfer self.content request position event, { self with schedule := schedule })

structure Progress where
  self : UriByteSource
  buffer : ByteBuffer
  position : Nat

def contents (buffer : ByteBuffer) (actual : Nat) : List UInt8 :=
  if buffer.position = actual then buffer.array else buffer.array.take buffer.position

def received (actual : Nat) (state : Progress) :
    Except Throwable (Option (List UInt8)) →
      Turn Progress (Except Throwable (List UInt8) × UriByteSource)
  | .error e => .exit (.error e, state.self)
  | .ok none => .exit (.ok (contents state.buffer actual), state.self)
  | .ok (some []) => .exit (.ok (contents state.buffer actual), state.self)
  | .ok (some data) => .next ⟨state.self, state.buffer.put data, state.position + data.length⟩

def readTurn (actual : Nat) (state : Progress) :
    Outcome (Turn Progress (Except Throwable (List UInt8) × UriByteSource)) :=
  if 0 < state.buffer.remaining then
    let (transfer, self) := state.self.readChannel state.buffer.remaining state.position
    return received actual { state with self := self } transfer
  else return .exit (.ok (contents state.buffer actual), state.self)

/-- Every turn transfers a byte, so the loop ends within the budget. -/
def read (offset : Int64) (length : Int32) : Reading UriByteSource Throwable (List UInt8) := do
  if offset < 0 then .fail ⟨some "offset must be non-negative"⟩
  else if length < 0 then .fail ⟨some "length must be non-negative"⟩
  else if length = 0 then return []
  else
    let self ← .ask id
    let size ← self.size
    if size ≤ offset then return []
    else
      let actual := min length.toNatClampNeg (size - offset).toNatClampNeg
      ⟨fun self => loop (readTurn actual) (actual + 1)
        ⟨self, .allocate actual, offset.toNatClampNeg⟩⟩

def readPrefix (maxBytes : Int32) : Reading UriByteSource Throwable (List UInt8) := read 0 maxBytes

/-! ### What a read returns -/

section Spec

variable {offset actual : Nat}

structure Filled (offset actual : Nat) (state : Progress) : Prop where
  capacity : state.buffer.array.length = actual
  position_eq : state.position = offset + state.buffer.position
  filled_eq : state.buffer.filled = (state.self.content.drop offset).take state.buffer.position

def wanted (self : UriByteSource) (offset actual : Nat) : List UInt8 :=
  (self.content.drop offset).take actual

theorem Filled.contents_eq {state : Progress} (h : Filled offset actual state) :
    contents state.buffer actual =
      (wanted state.self offset actual).take state.buffer.position := by
  have hle := state.buffer.position_le
  have hfilled : contents state.buffer actual = state.buffer.filled := by
    unfold contents
    split
    · next hfull =>
      rw [ByteBuffer.filled, List.take_of_length_le]
      rw [h.capacity, hfull]
    · rfl
  rw [hfilled, h.filled_eq, wanted, List.take_take, Nat.min_eq_left (h.capacity ▸ hle)]

theorem Filled.put {state : Progress} (h : Filled offset actual state) {data : List UInt8}
    (hdata : data <+: state.self.content.drop (offset + state.buffer.position))
    (hroom : data.length ≤ state.buffer.remaining) :
    Filled offset actual
      ⟨state.self, state.buffer.put data, state.position + data.length⟩ := by
  have hall : data.take state.buffer.remaining = data := List.take_of_length_le hroom
  have hposition : (state.buffer.put data).position = state.buffer.position + data.length := by
    simp only [ByteBuffer.put, hall]
  refine ⟨(state.buffer.length_put data).trans h.capacity, ?_, ?_⟩
  · simp only [hposition, h.position_eq, Nat.add_assoc]
  · have hnext : data = ((state.self.content.drop offset).drop state.buffer.position).take
        data.length := by
      rw [List.drop_drop]
      exact List.prefix_iff_eq_take.mp hdata
    rw [ByteBuffer.filled_put, hall, hposition, List.take_add, ← hnext, h.filled_eq]

/-- A transfer: it adds bytes, or the read ends with what there is. -/
theorem Filled.progress {state : Progress} (h : Filled offset actual state)
    (hroom : 0 < state.buffer.remaining) (count : Nat) :
    let answer := received actual state (ChannelEvent.transfer state.self.content
      state.buffer.remaining state.position (.progress count))
    (∃ state', answer = .next state' ∧ state'.self = state.self ∧
      state.buffer.position < state'.buffer.position ∧ Filled offset actual state') ∨
    ∃ k, answer = .exit (.ok ((wanted state.self offset actual).take k), state.self) ∧
      (0 < count → (wanted state.self offset actual).take k = wanted state.self offset actual) := by
  intro answer
  have hcontents := h.contents_eq
  by_cases hend : state.self.content.length ≤ state.position
  · right
    refine ⟨state.buffer.position, ?_, fun _ => List.take_of_length_le ?_⟩
    · simp only [answer, ChannelEvent.transfer, if_pos hend, received, hcontents]
    · have hposition := h.position_eq
      simp only [wanted, List.length_take, List.length_drop]
      omega
  · have htransfer : ChannelEvent.transfer state.self.content state.buffer.remaining
        state.position (.progress count) =
          .ok (some ((state.self.content.drop state.position).take
            (min count state.buffer.remaining))) := if_neg hend
    cases hdata : (state.self.content.drop state.position).take
        (min count state.buffer.remaining) with
    | nil =>
      right
      refine ⟨state.buffer.position, ?_, fun hcount => ?_⟩
      · simp only [answer, htransfer, hdata, received, hcontents]
      · have hlength := congrArg List.length hdata
        simp only [List.length_take, List.length_drop, List.length_nil] at hlength
        omega
    | cons byte rest =>
      left
      have hinitial :
          byte :: rest <+: state.self.content.drop (offset + state.buffer.position) := by
        rw [← h.position_eq, ← hdata]
        exact List.take_prefix _ _
      have hle : (byte :: rest).length ≤ state.buffer.remaining := by
        rw [← hdata, List.length_take]
        omega
      refine ⟨⟨state.self, state.buffer.put (byte :: rest),
        state.position + (byte :: rest).length⟩, ?_, rfl, ?_, h.put hinitial hle⟩
      · simp only [answer, htransfer, hdata, received]
      · simp only [ByteBuffer.put, List.take_of_length_le hle, List.length_cons]
        omega

def after (self : UriByteSource) (rest : List ChannelEvent) : UriByteSource :=
  { self with schedule := rest }

/-- Nothing was thrown, and every transfer was of some bytes. -/
def Steady (events : List ChannelEvent) : Prop :=
  ∀ event ∈ events, ∃ count, 0 < count ∧ event = .progress count

/-- What a read comes to: what the first event that throws one throws, or the bytes
    up to the first transfer of none. -/
def Accounted (offset actual : Nat) (self : UriByteSource)
    (outcome : Except Throwable (List UInt8) × UriByteSource) : Prop :=
  ∃ used rest, self.schedule = used ++ rest ∧ outcome.2 = self.after rest ∧
    ((∀ e, .thrown e ∉ used) → ∃ k, outcome.1 = .ok ((wanted self offset actual).take k) ∧
      (Steady used → (wanted self offset actual).take k = wanted self offset actual)) ∧
    ∀ e, .thrown e ∈ used → outcome.1 = .error e

/-- A transfer of some bytes leaves the account to the events behind it. -/
theorem Accounted.cons {self : UriByteSource} {count : Nat} {schedule : List ChannelEvent}
    (hschedule : self.schedule = .progress count :: schedule)
    {outcome : Except Throwable (List UInt8) × UriByteSource}
    (h : Accounted offset actual (self.after schedule) outcome) :
    Accounted offset actual self outcome := by
  obtain ⟨used, rest, hsplit, hself, hok, hthrown⟩ := h
  refine ⟨.progress count :: used, rest, ?_, hself, fun hquiet => ?_, fun e hmem => ?_⟩
  · rw [hschedule, List.cons_append, ← hsplit]
    rfl
  · obtain ⟨k, hk, hall⟩ := hok fun e hmem => hquiet e (List.mem_cons_of_mem _ hmem)
    exact ⟨k, hk, fun hsteady => hall fun event hevent =>
      hsteady event (List.mem_cons_of_mem _ hevent)⟩
  · rcases List.mem_cons.mp hmem with heq | hmem
    · cases heq
    · exact hthrown e hmem

/-- A read that ends with the bytes up to `k`, on a transfer or behind the last one. -/
theorem Accounted.finish {self : UriByteSource} {k : Nat} (used : List ChannelEvent)
    {rest : List ChannelEvent} (hschedule : self.schedule = used ++ rest)
    (hquiet : ∀ e, .thrown e ∉ used)
    (hall : Steady used → (wanted self offset actual).take k = wanted self offset actual) :
    Accounted offset actual self
      (.ok ((wanted self offset actual).take k), self.after rest) :=
  ⟨used, rest, hschedule, rfl, fun _ => ⟨k, rfl, hall⟩, fun e hmem => absurd hmem (hquiet e)⟩

/-- **One turn of a read.** It leaves with a result that accounts for the events it
    used, or goes on with more bytes in the buffer. -/
theorem readTurn_spec (state : Progress) (h : Filled offset actual state) :
    (∃ state', readTurn actual state = .done (.next state') ∧ Filled offset actual state' ∧
      actual - state'.buffer.position < actual - state.buffer.position ∧
      ∀ outcome, Accounted offset actual state'.self outcome →
        Accounted offset actual state.self outcome) ∨
    ∃ outcome, readTurn actual state = .done (.exit outcome) ∧
      Accounted offset actual state.self outcome := by
  unfold readTurn
  by_cases hroom : 0 < state.buffer.remaining
  · have hless : ∀ {n}, state.buffer.position < n →
        actual - n < actual - state.buffer.position := by
      have hcapacity := h.capacity
      unfold ByteBuffer.remaining at hroom
      omega
    rw [if_pos hroom]
    unfold readChannel
    cases hschedule : state.self.schedule with
    | nil =>
      dsimp only
      rcases h.progress hroom state.buffer.remaining with
        ⟨state', hrun, hself, hmore, hfilled⟩ | ⟨k, hrun, hall⟩
      · exact Or.inl ⟨state', congrArg Outcome.done hrun, hfilled, hless hmore, by
          rw [hself]
          exact fun _ houtcome => houtcome⟩
      · refine Or.inr ⟨_, congrArg Outcome.done hrun, ?_⟩
        have hself : state.self = state.self.after [] := by
          rw [after, ← hschedule]
        have hdone : Accounted offset actual state.self
            (.ok ((wanted state.self offset actual).take k), state.self.after []) :=
          .finish [] hschedule (fun e => List.not_mem_nil) fun _ => hall hroom
        rwa [← hself] at hdone
    | cons event schedule =>
      cases event with
      | thrown e =>
        refine Or.inr ⟨_, rfl, [.thrown e], schedule, hschedule, rfl, ?_, ?_⟩
        · exact fun hquiet => absurd List.mem_cons_self (hquiet e)
        · intro e' hmem
          cases List.mem_singleton.mp hmem
          rfl
      | progress count =>
        have hafter : Filled offset actual { state with self := state.self.after schedule } :=
          ⟨h.capacity, h.position_eq, h.filled_eq⟩
        rcases hafter.progress hroom count with
          ⟨state', hrun, hself, hmore, hfilled⟩ | ⟨k, hrun, hall⟩
        · refine Or.inl ⟨state', congrArg Outcome.done hrun, hfilled, hless hmore, ?_⟩
          rw [hself]
          exact fun _ => .cons hschedule
        · refine Or.inr ⟨_, congrArg Outcome.done hrun, ?_⟩
          refine Accounted.finish [.progress count] hschedule (by simp) fun hsteady => ?_
          obtain ⟨n, hpositive, heq⟩ := hsteady _ List.mem_cons_self
          cases heq
          exact hall hpositive
  · have hfull : actual ≤ state.buffer.position := by
      have hcapacity := h.capacity
      unfold ByteBuffer.remaining at hroom
      omega
    rw [if_neg hroom]
    refine Or.inr ⟨_, rfl, ?_⟩
    rw [h.contents_eq]
    refine Accounted.finish [] rfl (fun e => List.not_mem_nil) fun _ => List.take_of_length_le ?_
    rw [wanted, List.length_take]
    omega

theorem Filled.start (self : UriByteSource) :
    Filled offset actual ⟨self, .allocate actual, offset⟩ :=
  ⟨ByteBuffer.length_allocate actual, rfl, rfl⟩

end Spec

section Range

variable (self : UriByteSource) {size : Int64} (hsize : self.size = .ok size) (offset : Int64)
  (length : Int32) (hoffset : 0 ≤ offset) (hlength : 0 ≤ length)

include hsize hoffset hlength

/-- **What a read returns.** -/
theorem read_spec :
    ∃ outcome, (read offset length).run self = .done outcome ∧
      Accounted offset.toNatClampNeg
        (min (size.toNatClampNeg - offset.toNatClampNeg) length.toNatClampNeg) self outcome := by
  unfold read
  rw [if_neg (Int64.not_lt.mpr hoffset), if_neg (Int32.not_lt.mpr hlength)]
  have hnothing : ∀ {offset actual : Nat}, actual = 0 →
      Accounted offset actual self (.ok [], self) := by
    rintro offset actual rfl
    have h : Accounted offset 0 self
        (.ok ((wanted self offset 0).take 0), self.after self.schedule) :=
      .finish [] rfl (fun e => List.not_mem_nil) fun _ => rfl
    exact h
  by_cases hzero : length = 0
  · rw [if_pos hzero]
    refine ⟨_, rfl, hnothing ?_⟩
    rw [hzero]
    exact Nat.min_zero _
  · rw [if_neg hzero, Reading.bind_of_ok (Reading.ask_run id self)]
    dsimp only [id]
    rw [hsize]
    by_cases hpast : size ≤ offset
    · have hclamp := Int64.toNatClampNeg_le hpast
      refine ⟨(.ok [], self), ?_, hnothing (by omega)⟩
      show Reading.run (if size ≤ offset then _ else _) self = _
      rw [if_pos hpast]
      rfl
    · have hinside : offset ≤ size := Int64.le_of_lt (Int64.not_le.mp hpast)
      have hactual : min length.toNatClampNeg (size - offset).toNatClampNeg =
          min (size.toNatClampNeg - offset.toNatClampNeg) length.toNatClampNeg := by
        rw [Int64.toNatClampNeg_sub_of_le hoffset hinside, Nat.min_comm]
      show ∃ outcome, Reading.run (if size ≤ offset then _ else _) self = _ ∧ _
      rw [if_neg hpast, ← hactual]
      exact loop_spec _ (Filled _ _) (fun state => _ - state.buffer.position)
        (fun state => Accounted _ _ state.self) readTurn_spec _ _ (.start self)
        (Nat.lt_succ_of_le (Nat.sub_le _ _))

/-- **The two sources agree.** Where no call fails, a read through the channel returns
    a prefix of what the native read of the range returns, and all of it unless a
    transfer is of no bytes. -/
theorem read_prefix_of_native {B : Build} (native : FdSource B)
    (hfile : native.device.content = self.content) (hnative : native.size = size.toUInt64)
    (hpositive : 0 ≤ size) (hreach : size.toNatClampNeg ≤ B.isizeMax) :
    ∃ outcome used rest bytes used' rest',
      (read offset length).run self = .done (outcome, self.after rest) ∧
      self.schedule = used ++ rest ∧
      (ByteSource.read offset.toUInt64 length.toNatClampNeg).run native =
        .done (bytes, native.after rest') ∧
      native.device.schedule = used' ++ rest' ∧
      ((∀ e, .thrown e ∉ used) → (∀ message, .failed message ∉ used') →
        ∃ whole k, bytes = .ok whole ∧ outcome = .ok (whole.take k) ∧
          (Steady used → whole.take k = whole)) := by
  have hword : B.isizeMax ≤ 2 ^ (B.usizeBits - 1) := Nat.sub_le _ _
  have hsize' : native.size.toNat = size.toNatClampNeg := by
    rw [hnative]
    exact Int64.toNat_toUInt64_of_le hpositive
  have hoffset' : offset.toUInt64.toNat = offset.toNatClampNeg :=
    Int64.toNat_toUInt64_of_le hoffset
  obtain ⟨⟨outcome, self'⟩, hrun, used, rest, hused, hrest, hok, -⟩ :=
    self.read_spec hsize offset length hoffset hlength
  obtain ⟨⟨bytes, native'⟩, hrun', used', rest', hused', hrest', hok', -⟩ :=
    FdSource.read_spec native offset.toUInt64 length.toNatClampNeg (by rw [hsize']; omega)
      (by rw [hsize']; omega)
  dsimp only at hrest hok hrest' hok'
  subst hrest hrest'
  refine ⟨outcome, used, rest, bytes, used', rest', hrun, hused, hrun', hused', ?_⟩
  intro hquiet hquiet'
  obtain ⟨k, hk, hall⟩ := hok hquiet
  refine ⟨_, k, hok' hquiet', ?_, ?_⟩
  · rw [hk, hsize', hoffset', hfile]
    rfl
  · rw [hsize', hoffset', hfile]
    exact hall

end Range

/-- Three bytes of a file of four, with a transfer of one byte and one of none. -/
theorem read_prefix_of_native_gap :
    let self : UriByteSource := ⟨3, 4, .ok 4, [1, 2, 3, 4], [.progress 1, .progress 0]⟩
    let native : FdSource (.wide .release) := ⟨3, 4, ⟨[1, 2, 3, 4], [.interrupted, .progress 2]⟩⟩
    ∃ outcome bytes self' native', (read 1 3).run self = .done (outcome, self') ∧
      (ByteSource.read 1 3).run native = .done (bytes, native') ∧
      ∃ whole k, bytes = .ok whole ∧ outcome = .ok (whole.take k) := by
  intro self native
  have hsize : self.size = .ok 4 := rfl
  obtain ⟨outcome, used, rest, bytes, used', rest', hrun, hused, hrun', hused', hagree⟩ :=
    self.read_prefix_of_native hsize 1 3 (by decide) (by decide) native rfl rfl
      (by decide) (by decide)
  have hquiet : ∀ e, .thrown e ∉ used := by
    intro e hmem
    have hall : ChannelEvent.thrown e ∈ self.schedule := hused ▸ List.mem_append_left rest hmem
    simp [self] at hall
  have hquiet' : ∀ message, .failed message ∉ used' := by
    intro message hmem
    have hall : Event.failed message ∈ native.device.schedule :=
      hused' ▸ List.mem_append_left rest' hmem
    simp [native] at hall
  obtain ⟨whole, k, hbytes, houtcome, -⟩ := hagree hquiet hquiet'
  exact ⟨outcome, bytes, _, _, hrun, hrun', whole, k, hbytes, houtcome⟩

end UriByteSource

end ImgTools
