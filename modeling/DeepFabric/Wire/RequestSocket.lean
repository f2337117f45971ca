/-
  DeepFabric.Wire.RequestSocket — one request socket of a MessageManager
  (cxx/io/MessageManager.cxx, and poll and send of cxx/io/LinkManager.cxx).

  A bundle is any number of sendREQ calls, the last one with bLast. While no request is in
  progress its messages are gathered in the send block and go to the link with the last one;
  else they wait in a queue, and the last reply to the request sends the bundle at the front.
  A reply with the block flag leaves that to unblockREQ. The link is a request socket of ZeroMQ:
  the parts of a message go out one by one, and after the last one the reply has to come first.

  What a writer hands over is the buffer with its header (`Wire.Message`). The peer is whatever
  replies, and a callback issues whatever bundles it likes. The link takes what it is given; the
  statuses of sends that fail, the calls of canFree and the other sockets are left out.

  As built:
  - `unblocked_too_early`: an unblockREQ that finds no queued message leaves the request marked as
    in progress, so the next bundle waits for a reply that nobody owes; and `send` takes the size
    that zmq_sendmsg returns for a failure when it is 32.
-/
import DeepFabric.Lib.Run
import DeepFabric.Wire.Message

namespace DeepFabric.Wire.RequestSocket

open DeepFabric.Lib.Run List

/-! ## Requests and bundles -/

def oneMsg : BitVec 32 := firstFlag ||| lastFlag

/-- What a writer hands over for a request: the version is set, and no position. -/
structure Request where
  verFlags : BitVec 32
  msgId : BitVec 32
  size : BitVec 32
  payload : Bytes
  versioned : verFlags ||| version = verFlags
  plain : verFlags &&& oneMsg = 0

def Request.buffer (r : Request) : Bytes := messageHeader r.verFlags r.msgId r.size ++ r.payload

/-- The calls of sendREQ for a bundle: those without bLast, then the one with it. -/
structure Bundle where
  parts : List Request
  last : Request

def Bundle.requests (b : Bundle) : List Request := b.parts ++ [b.last]

/-! ## The link -/

/-- One part of a message, and whether ZMQ_SNDMORE was set. -/
structure Part where
  msg : Bytes
  more : Bool
  deriving DecidableEq

/-- What passes between the program and the link. -/
inductive Transfer where
  | part (p : Part)
  | answer
  deriving DecidableEq

structure Link where
  trace : List Transfer
  receivingReply : Bool

/-- What ends the process. -/
inductive Fault where
  /-- The exception "Pending Queue is not empty and no REQ in progress!". -/
  | pendingQueue
  /-- abort(): the bundle at the front is not whole yet. -/
  | incomplete
  /-- abort(): the queue ends without a last message. -/
  | noLastFlag
  /-- abort(): EFSM_CAUSES_CRASH. -/
  | efsm
  /-- A header is not readable. -/
  | header
  deriving DecidableEq

/-- zmq_sendmsg gives the size of what it has sent. -/
def Link.sendmsg (l : Link) (msg : Bytes) (more : Bool) : Except Fault (Nat × Link) :=
  if l.receivingReply then .error .efsm
  else .ok (msg.length, ⟨l.trace ++ [.part ⟨msg, more⟩], !more⟩)

/-- The loop around zmq_sendmsg. `continue` sends the message again, which is empty by then. -/
def Link.sendPart (l : Link) (msg : Bytes) (more : Bool) : Except Fault Link := do
  let (rc, l) ← l.sendmsg msg more
  if rc = 32 then
    let (_, l) ← l.sendmsg [] more
    return l
  return l

/-- LinkManager::send, which empties the block. -/
def Link.send (l : Link) : List Bytes → Except Fault Link
  | [] => .ok l
  | msg :: messages => do
    let l ← l.sendPart msg (!messages.isEmpty)
    l.send messages

/-! ## The socket -/

def middle : Nat := 0
def first : Nat := 1
def last : Nat := 2

structure PendingMessageQEntry where
  /-- Where it lies in memory. -/
  address : Nat
  flags : Nat
  msg : Bytes

structure SocketEvent where
  sendBlk : List Bytes
  bundle : Nat
  reqInProgress : Bool
  queue : List PendingMessageQEntry
  currentIncomplete : Option Nat
  /-- The entries made so far. -/
  made : Nat

def SocketEvent.new : SocketEvent := ⟨[], first, false, [], none, 0⟩

/-- The header flags and the entry's flags that sendREQ sets. -/
def position (iBundle : Nat) (bLast : Bool) : Option (BitVec 32) × Nat :=
  if first = iBundle ∧ bLast then (some oneMsg, first ||| last)
  else if first = iBundle then (some firstFlag, first)
  else if bLast then (some lastFlag, last)
  else (none, middle)

def Request.setFlags (r : Request) : Option (BitVec 32) → Except Fault Bytes
  | none => .ok r.buffer
  | some iFlags => (setFlagsAt r.buffer iFlags).mapError fun _ => .header

def sendREQ (e : SocketEvent) (l : Link) (cRequest : Request) (bLast : Bool) : Except Fault (SocketEvent × Link) := do
  let (header, iFlags) := position e.bundle bLast
  let piBuffer ← cRequest.setFlags header
  let next := if first = e.bundle then middle else e.bundle
  if e.reqInProgress then
    -- the entry's own flags are tested before they are set
    let fresh : PendingMessageQEntry := ⟨e.made, 0, []⟩
    let incomplete := if first = fresh.flags &&& first then some fresh.address else e.currentIncomplete
    let e := { e with queue := e.queue ++ [{ fresh with flags := iFlags, msg := piBuffer }], made := e.made + 1 }
    if bLast then return ({ e with currentIncomplete := none, bundle := first }, l)
    else return ({ e with currentIncomplete := incomplete, bundle := next }, l)
  else if !e.queue.isEmpty then .error .pendingQueue
  else
    let sendBlk := e.sendBlk ++ [piBuffer]
    if bLast then
      let l ← l.send sendBlk
      return ({ e with sendBlk := [], reqInProgress := true, bundle := first }, l)
    else return ({ e with sendBlk := sendBlk, bundle := next }, l)

def sendFrom (e : SocketEvent) (l : Link) : List Request → Request → Except Fault (SocketEvent × Link)
  | [], r => sendREQ e l r true
  | r :: rs, r' => do
    let (e, l) ← sendREQ e l r false
    sendFrom e l rs r'

def sendBundle (e : SocketEvent) (l : Link) (b : Bundle) : Except Fault (SocketEvent × Link) := sendFrom e l b.parts b.last

/-- The loop of unblockREQ: the send block and the queue behind the last message of the bundle at the front. -/
def unqueue (incomplete : Option Nat) (sendBlk : List Bytes) :
    List PendingMessageQEntry → Except Fault (List Bytes × List PendingMessageQEntry)
  | [] => .error .noLastFlag
  | qe :: queue =>
    if incomplete = some qe.address then .error .incomplete
    else if last = last &&& qe.flags then .ok (sendBlk ++ [qe.msg], queue)
    else unqueue incomplete (sendBlk ++ [qe.msg]) queue

def unblockREQ (e : SocketEvent) (l : Link) : Except Fault (SocketEvent × Link) :=
  if e.queue.isEmpty then .ok (e, l)
  else do
    let (sendBlk, queue) ← unqueue e.currentIncomplete e.sendBlk e.queue
    let l ← l.send sendBlk
    return ({ e with reqInProgress := true, queue := queue, sendBlk := [] }, l)

/-- The bundles that a callback issues. -/
def callback (e : SocketEvent) (l : Link) : List Bundle → Except Fault (SocketEvent × Link)
  | [] => .ok (e, l)
  | b :: bs => do
    let (e, l) ← sendBundle e l b
    callback e l bs

def readEvent (e : SocketEvent) (l : Link) (bIsReply bIsLast bToBlock : Bool) (issued : List Bundle) :
    Except Fault (SocketEvent × Link) := do
  let (e, l) ← callback e l issued
  if bIsReply ∧ bIsLast ∧ ¬bToBlock then
    if !e.queue.isEmpty then unblockREQ e l
    else return ({ e with reqInProgress := false }, l)
  else return (e, l)

/-- LinkManager::poll for a message on this socket: after the callback it sends what the send block holds. -/
def poll (e : SocketEvent) (l : Link) (bIsReply bIsLast bToBlock : Bool) (issued : List Bundle) :
    Except Fault (SocketEvent × Link) := do
  let (e, l) ← readEvent e ⟨l.trace ++ [.answer], false⟩ bIsReply bIsLast bToBlock issued
  let l ← l.send e.sendBlk
  return ({ e with sendBlk := [] }, l)

/-! ## Runs -/

structure St where
  event : SocketEvent
  link : Link
  /-- A blocked reply has come, and was not unblocked yet. No field of the program says so. -/
  blocked : Bool

def start : St := ⟨.new, ⟨[], false⟩, false⟩

inductive Event where
  | bundle (b : Bundle)
  /-- The last reply to the request, and the bundles that its callback issues. -/
  | reply (toBlock : Bool) (issued : List Bundle)
  | unblock

def Event.bundles : Event → List Bundle
  | .bundle b => [b]
  | .reply _ issued => issued
  | .unblock => []

def Event.isUnblock : Event → Bool
  | .unblock => true
  | _ => false

def step (s : St) : Event → Option St
  | .bundle b => (sendBundle s.event s.link b).toOption.map fun p => { s with event := p.1, link := p.2 }
  | .reply toBlock issued =>
    (poll s.event s.link true true toBlock issued).toOption.map fun p => ⟨p.1, p.2, s.blocked || toBlock⟩
  | .unblock => (unblockREQ s.event s.link).toOption.map fun p => ⟨p.1, p.2, false⟩

/-- A reply answers a request, and an unblockREQ follows a blocked reply. -/
def Possible (s : St) : Event → Prop
  | .bundle _ => True
  | .reply _ _ => s.link.receivingReply = true
  | .unblock => s.blocked = true

/-! ## What is promised -/

/-- The parts of one message. -/
def multipart : List Bytes → List Part
  | [] => []
  | msg :: messages => ⟨msg, !messages.isEmpty⟩ :: multipart messages

/-- The request as it is to arrive: FIRST and LAST are set as given. -/
def Request.marked (r : Request) (isFirst isLast : Bool) : Bytes :=
  messageHeader (r.verFlags ||| ((if isFirst then firstFlag else 0) ||| (if isLast then lastFlag else 0))) r.msgId r.size ++ r.payload

def markFrom (isFirst : Bool) : List Request → Request → List Bytes
  | [], r => [r.marked isFirst true]
  | r :: rs, r' => r.marked isFirst false :: markFrom false rs r'

/-- The messages of a bundle as they are to arrive. -/
def Bundle.marked (b : Bundle) : List Bytes := markFrom true b.parts b.last

/-- A bundle as it is to be transmitted. -/
def Bundle.transmission (b : Bundle) : List Part := multipart b.marked

def parts (trace : List Transfer) : List Part :=
  trace.filterMap fun w => match w with
    | .part p => some p
    | .answer => none

/-- The requests that were passed whole. -/
def requests (trace : List Transfer) : Nat := (parts trace).countP fun p => !p.more

def answers (trace : List Transfer) : Nat := trace.count .answer

/-- Every part was passed when every earlier request had been answered. -/
def InTurn (trace : List Transfer) : Prop := ∀ before after p, trace = before ++ .part p :: after → answers before = requests before

def headerFlag (flag : BitVec 32) (msg : Bytes) : Bool :=
  match readFixed32 (msg.drop 4) with
  | .ok verFlags => flag &&& verFlags ≠ 0
  | .error _ => false

/-- The discipline of the socket after the bundles `issued`. -/
structure Disciplined (s : St) (issued : List Bundle) : Prop where
  inTurn : InTurn s.link.trace
  /-- The bundles sent and the bundles that wait, in the order of their issue. -/
  whole : ∃ sent pending, issued = sent ++ pending ∧ parts s.link.trace = sent.flatMap Bundle.transmission
    ∧ s.event.queue.map PendingMessageQEntry.msg = pending.flatMap Bundle.marked
  flags : ∀ b ∈ issued, b.marked.length = b.requests.length ∧ ∀ i (h : i < b.marked.length),
    (headerFlag firstFlag b.marked[i] = true ↔ i = 0) ∧ (headerFlag lastFlag b.marked[i] = true ↔ i + 1 = b.marked.length)
  notStranded : s.event.queue ≠ [] → answers s.link.trace < requests s.link.trace ∨ s.blocked = true

/-! ## Marks -/

/-- m_iBundle at the first message of a bundle and at the others. -/
def place (isFirst : Bool) : Nat := if isFirst then first else middle

theorem marked_middle (r : Request) : r.marked false false = r.buffer := by
  show messageHeader (r.verFlags ||| 0#32) r.msgId r.size ++ r.payload = r.buffer
  rw [BitVec.or_zero]
  rfl

theorem setFlags_position (r : Request) (isFirst isLast : Bool) :
    r.setFlags (position (place isFirst) isLast).1 = .ok (r.marked isFirst isLast) := by
  have hset : ∀ flags, setFlagsAt r.buffer flags = .ok (messageHeader (r.verFlags ||| flags) r.msgId r.size ++ r.payload) := by
    intro flags
    rw [Request.buffer, setFlagsAt_header, ← BitVec.or_assoc, r.versioned]
  cases isFirst <;> cases isLast
  · exact congrArg Except.ok (marked_middle r).symm
  all_goals exact congrArg (Except.mapError fun _ => Fault.header) (hset _)

theorem length_marked (r : Request) (isFirst isLast : Bool) : (r.marked isFirst isLast).length = r.buffer.length := by
  rw [Request.marked, Request.buffer, length_append, length_append]
  rfl

theorem headerFlag_marked (r : Request) (isFirst isLast : Bool) :
    headerFlag firstFlag (r.marked isFirst isLast) = isFirst ∧ headerFlag lastFlag (r.marked isFirst isLast) = isLast := by
  have hoff : ∀ flag mask : BitVec 32, oneMsg &&& flag = flag → flag &&& (r.verFlags ||| mask) = flag &&& mask := by
    intro flag mask h
    have hplain : flag &&& r.verFlags = 0 := by
      rw [← h, BitVec.and_comm oneMsg, BitVec.and_assoc, BitVec.and_comm oneMsg, r.plain]
      exact BitVec.and_zero
    rw [BitVec.and_or_distrib_left, hplain, BitVec.ofNat_eq_ofNat, BitVec.zero_or]
  have hread := read_verFlags
    (r.verFlags ||| ((if isFirst then firstFlag else 0) ||| (if isLast then lastFlag else 0))) r.msgId r.size r.payload
  simp only [headerFlag, Request.marked, hread, hoff firstFlag _ rfl, hoff lastFlag _ rfl]
  cases isFirst <;> cases isLast <;> exact ⟨rfl, rfl⟩

variable {msg : Bytes}

theorem mem_markFrom {isFirst : Bool} {rs : List Request} {r : Request} (h : msg ∈ markFrom isFirst rs r) :
    ∃ r' ∈ rs ++ [r], msg.length = r'.buffer.length := by
  induction rs generalizing isFirst with
  | nil =>
    obtain rfl := mem_singleton.mp h
    exact ⟨r, mem_singleton_self r, length_marked r isFirst true⟩
  | cons r₁ rs ih =>
    rcases mem_cons.mp h with rfl | h
    · exact ⟨r₁, mem_cons_self, length_marked r₁ isFirst false⟩
    · obtain ⟨r', hr', hlen⟩ := ih h
      exact ⟨r', mem_cons_of_mem r₁ hr', hlen⟩

theorem markFrom_ne_nil (isFirst : Bool) (rs : List Request) (r : Request) : markFrom isFirst rs r ≠ [] := by
  cases rs <;> exact cons_ne_nil _ _

theorem length_markFrom (isFirst : Bool) (rs : List Request) (r : Request) : (markFrom isFirst rs r).length = rs.length + 1 := by
  induction rs generalizing isFirst with
  | nil => rfl
  | cons r₁ rs ih => exact congrArg (· + 1) (ih false)

theorem headerFlag_markFrom (isFirst : Bool) (rs : List Request) (r : Request) (i : Nat)
    (h : i < (markFrom isFirst rs r).length) :
    (headerFlag firstFlag (markFrom isFirst rs r)[i] = true ↔ isFirst = true ∧ i = 0)
      ∧ (headerFlag lastFlag (markFrom isFirst rs r)[i] = true ↔ i + 1 = (markFrom isFirst rs r).length) := by
  induction rs generalizing isFirst i with
  | nil =>
    have h0 : i = 0 := by
      have : i < 1 := h
      omega
    subst h0
    obtain ⟨hf, hl⟩ := headerFlag_marked r isFirst true
    simp [markFrom, hf, hl]
  | cons r₁ rs ih =>
    cases i with
    | zero =>
      obtain ⟨hf, hl⟩ := headerFlag_marked r₁ isFirst false
      simp [markFrom, hf, hl, markFrom_ne_nil]
    | succ i =>
      obtain ⟨hf, hl⟩ := ih false i (Nat.lt_of_succ_lt_succ h)
      simp [markFrom, hf, hl]

/-! ## The trace of the link -/

theorem parts_append (t t' : List Transfer) : parts (t ++ t') = parts t ++ parts t' := filterMap_append

theorem parts_map (ps : List Part) : parts (ps.map Transfer.part) = ps := by
  rw [parts, filterMap_map]
  exact filterMap_some

theorem requests_append (t t' : List Transfer) : requests (t ++ t') = requests t + requests t' := by
  rw [requests, parts_append, countP_append]
  rfl

theorem answers_append (t t' : List Transfer) : answers (t ++ t') = answers t + answers t' := count_append

theorem inTurn_snoc {t : List Transfer} {w : Transfer} (h : InTurn t) (hw : w = .answer ∨ answers t = requests t) :
    InTurn (t ++ [w]) := by
  intro before after p he
  rcases append_eq_append_iff.mp he with ⟨l, rfl, hl⟩ | ⟨l, rfl, hl⟩
  · cases l with
    | nil =>
      rw [append_nil]
      rcases hw with rfl | hw
      · cases hl
      · exact hw
    | cons x l => cases l <;> cases hl
  · cases l with
    | nil =>
      rw [append_nil] at hw
      rcases hw with rfl | hw
      · cases hl
      · exact hw
    | cons x l =>
      obtain ⟨rfl, -⟩ := List.cons.inj hl
      exact h before l p rfl

/-- The link knows whether a request waits for its reply. -/
structure Link.Ok (l : Link) : Prop where
  inTurn : InTurn l.trace
  balance : requests l.trace = answers l.trace + l.receivingReply.toNat

theorem Link.Ok.answered {l : Link} (h : l.Ok) (hr : l.receivingReply = false) : answers l.trace = requests l.trace := by
  have := h.balance
  rw [hr] at this
  exact this.symm

theorem ok_new : Link.Ok ⟨[], false⟩ := by
  refine ⟨fun before after p h => ?_, rfl⟩
  cases before <;> cases h

theorem ok_answer {l : Link} (h : l.Ok) (hr : l.receivingReply = true) : Link.Ok ⟨l.trace ++ [.answer], false⟩ := by
  refine ⟨inTurn_snoc h.inTurn (.inl rfl), ?_⟩
  have hbal := h.balance
  rw [hr] at hbal
  rw [requests_append, answers_append, hbal]
  rfl

theorem ok_part {l : Link} (h : l.Ok) (hr : l.receivingReply = false) (msg : Bytes) (more : Bool) :
    Link.Ok ⟨l.trace ++ [.part ⟨msg, more⟩], !more⟩ := by
  refine ⟨inTurn_snoc h.inTurn (.inr (h.answered hr)), ?_⟩
  rw [requests_append, answers_append, h.answered hr]
  cases more <;> rfl

/-- A message of another size than 32 is given to zmq_sendmsg once. -/
theorem sendPart_ok {l : Link} (hr : l.receivingReply = false) (h32 : msg.length ≠ 32) (more : Bool) :
    l.sendPart msg more = .ok ⟨l.trace ++ [.part ⟨msg, more⟩], !more⟩ := by
  have hsend : l.sendmsg msg more = .ok (msg.length, ⟨l.trace ++ [.part ⟨msg, more⟩], !more⟩) := by
    rw [Link.sendmsg, hr]
    rfl
  rw [Link.sendPart, hsend]
  show (if msg.length = 32 then _ else _) = _
  rw [if_neg h32]
  rfl

/-- A block whose request is due goes out whole, and a reply is awaited then. -/
theorem send_ok {messages : List Bytes} (hne : messages ≠ []) (h32 : ∀ msg ∈ messages, msg.length ≠ 32) {l : Link} (h : l.Ok)
    (hr : l.receivingReply = false) :
    ∃ l', l.send messages = .ok l' ∧ l'.Ok ∧ l'.receivingReply = true
      ∧ l'.trace = l.trace ++ (multipart messages).map .part := by
  induction messages generalizing l with
  | nil => exact absurd rfl hne
  | cons msg messages ih =>
    have hpart := sendPart_ok hr (h32 msg mem_cons_self) (!messages.isEmpty)
    have hok := ok_part h hr msg (!messages.isEmpty)
    rw [Link.send, hpart]
    cases messages with
    | nil => exact ⟨_, rfl, hok, rfl, rfl⟩
    | cons msg' messages =>
      obtain ⟨l', hsend, hok', hr', htrace⟩ := ih (cons_ne_nil _ _) (fun m hm => h32 m (mem_cons_of_mem msg hm)) hok rfl
      refine ⟨l', hsend, hok', hr', ?_⟩
      rw [htrace, append_assoc]
      rfl

/-! ## Bundles sent at once -/

theorem place_next (isFirst : Bool) : (if first = place isFirst then middle else place isFirst) = place false := by
  cases isFirst <;> rfl

variable {e : SocketEvent}

theorem sendREQ_idle {l : Link} {isFirst : Bool} (hidle : e.reqInProgress = false) (hqueue : e.queue = [])
    (hbundle : e.bundle = place isFirst) (r : Request) :
    sendREQ e l r false = .ok ({ e with sendBlk := e.sendBlk ++ [r.marked isFirst false], bundle := place false }, l) := by
  simp only [sendREQ, hbundle, setFlags_position, hidle, hqueue, place_next, bind, Except.bind, pure, Except.pure]
  rfl

theorem sendREQ_idle_last {l l' : Link} {isFirst : Bool} (hidle : e.reqInProgress = false)
    (hqueue : e.queue = []) (hbundle : e.bundle = place isFirst) {r : Request}
    (hsend : l.send (e.sendBlk ++ [r.marked isFirst true]) = .ok l') :
    sendREQ e l r true = .ok ({ e with sendBlk := [], reqInProgress := true, bundle := first }, l') := by
  simp only [sendREQ, hbundle, setFlags_position, hidle, hqueue, bind, Except.bind, pure, Except.pure]
  simp only [Bool.false_eq_true, if_false, isEmpty_nil, Bool.not_true, if_true, hsend]

theorem sendFrom_idle {l l' : Link} {isFirst : Bool} (hidle : e.reqInProgress = false) (hqueue : e.queue = [])
    (hbundle : e.bundle = place isFirst) {rs : List Request} {r : Request}
    (hsend : l.send (e.sendBlk ++ markFrom isFirst rs r) = .ok l') :
    sendFrom e l rs r = .ok ({ e with sendBlk := [], reqInProgress := true, bundle := first }, l') := by
  induction rs generalizing e isFirst with
  | nil => exact sendREQ_idle_last hidle hqueue hbundle hsend
  | cons r₁ rs ih =>
    rw [sendFrom, sendREQ_idle hidle hqueue hbundle]
    refine @ih { e with sendBlk := e.sendBlk ++ [r₁.marked isFirst false], bundle := place false } false hidle hqueue rfl ?_
    rw [append_assoc]
    exact hsend

/-! ## Bundles queued -/

/-- What a queue entry holds, wherever it lies. -/
def PendingMessageQEntry.content (qe : PendingMessageQEntry) : Nat × Bytes := (qe.flags, qe.msg)

theorem content_eq {qe : PendingMessageQEntry} {flags : Nat} (h : qe.content = (flags, msg)) :
    qe.flags = flags ∧ qe.msg = msg :=
  Prod.mk.inj h

def queueFrom (isFirst : Bool) : List Request → Request → List (Nat × Bytes)
  | [], r => [((position (place isFirst) true).2, r.marked isFirst true)]
  | r :: rs, r' => ((position (place isFirst) false).2, r.marked isFirst false) :: queueFrom false rs r'

/-- The queue entries of a bundle. -/
def Bundle.queued (b : Bundle) : List (Nat × Bytes) := queueFrom true b.parts b.last

theorem queueFrom_msg (isFirst : Bool) (rs : List Request) (r : Request) :
    (queueFrom isFirst rs r).map Prod.snd = markFrom isFirst rs r := by
  induction rs generalizing isFirst with
  | nil => rfl
  | cons r₁ rs ih => exact congrArg (r₁.marked isFirst false :: ·) (ih false)

theorem sendREQ_busy (l : Link) {isFirst : Bool} (hbusy : e.reqInProgress = true)
    (hinc : e.currentIncomplete = none) (hbundle : e.bundle = place isFirst) (r : Request) (bLast : Bool) :
    ∃ qe : PendingMessageQEntry, qe.content = ((position (place isFirst) bLast).2, r.marked isFirst bLast)
      ∧ sendREQ e l r bLast = .ok
        ({ e with queue := e.queue ++ [qe], made := e.made + 1, bundle := if bLast then first else place false }, l) := by
  refine ⟨⟨e.made, (position (place isFirst) bLast).2, r.marked isFirst bLast⟩, rfl, ?_⟩
  simp only [sendREQ, hbundle, setFlags_position, hbusy, hinc, place_next, bind, Except.bind, pure, Except.pure]
  cases bLast <;> rfl

theorem sendFrom_busy (l : Link) {isFirst : Bool} (hbusy : e.reqInProgress = true)
    (hinc : e.currentIncomplete = none) (hbundle : e.bundle = place isFirst) (rs : List Request) (r : Request) :
    ∃ (added : List PendingMessageQEntry) (made : Nat), added.map (·.content) = queueFrom isFirst rs r
      ∧ sendFrom e l rs r = .ok ({ e with queue := e.queue ++ added, made := made, bundle := first }, l) := by
  induction rs generalizing e isFirst with
  | nil =>
    obtain ⟨qe, hcontent, hsend⟩ := sendREQ_busy l hbusy hinc hbundle r true
    exact ⟨[qe], e.made + 1, congrArg (· :: []) hcontent, hsend⟩
  | cons r₁ rs ih =>
    obtain ⟨qe, hcontent, hsend⟩ := sendREQ_busy l hbusy hinc hbundle r₁ false
    obtain ⟨added, made, hadded, hrest⟩ :=
      @ih { e with queue := e.queue ++ [qe], made := e.made + 1, bundle := place false } false hbusy hinc rfl
    refine ⟨qe :: added, made, ?_, ?_⟩
    · rw [map_cons, hcontent, hadded]
      rfl
    · rw [sendFrom, hsend]
      refine hrest.trans ?_
      rw [append_assoc]
      rfl

theorem last_position (isFirst isLast : Bool) : last = last &&& (position (place isFirst) isLast).2 ↔ isLast = true := by
  cases isFirst <;> cases isLast <;> decide

/-- The loop of unblockREQ takes the bundle at the front, and no more. -/
theorem unqueue_bundle {isFirst : Bool} {rs : List Request} {r : Request} {queue : List PendingMessageQEntry}
    {others : List (Nat × Bytes)} (hq : queue.map (·.content) = queueFrom isFirst rs r ++ others) (sendBlk : List Bytes) :
    ∃ queue', unqueue none sendBlk queue = .ok (sendBlk ++ markFrom isFirst rs r, queue') ∧ queue'.map (·.content) = others := by
  induction rs generalizing isFirst queue sendBlk with
  | nil =>
    obtain ⟨qe, queue', rfl, hqe, hrest⟩ := map_eq_cons_iff.mp hq
    obtain ⟨hflags, hmsg⟩ := content_eq hqe
    refine ⟨queue', ?_, hrest⟩
    rw [unqueue, hflags, hmsg, if_neg (fun h => by cases h), if_pos ((last_position isFirst true).mpr rfl)]
    rfl
  | cons r₁ rs ih =>
    obtain ⟨qe, queue', rfl, hqe, hrest⟩ := map_eq_cons_iff.mp hq
    obtain ⟨hflags, hmsg⟩ := content_eq hqe
    obtain ⟨queue'', hun, hothers⟩ := ih hrest (sendBlk ++ [r₁.marked isFirst false])
    refine ⟨queue'', ?_, hothers⟩
    rw [unqueue, hflags, hmsg, if_neg (fun h => by cases h),
      if_neg (fun h => Bool.false_ne_true ((last_position isFirst false).mp h)), hun, append_assoc]
    rfl

/-! ## The invariant -/

/-- What is true of the socket also while a callback issues its bundles. -/
structure Kept (e : SocketEvent) (trace : List Transfer) (issued : List Bundle) : Prop where
  sendBlk : e.sendBlk = []
  bundle : e.bundle = first
  incomplete : e.currentIncomplete = none
  whole : ∃ sent pending, issued = sent ++ pending ∧ parts trace = sent.flatMap Bundle.transmission
    ∧ e.queue.map (·.content) = pending.flatMap Bundle.queued
  sizes : ∀ b ∈ issued, ∀ r ∈ b.requests, r.buffer.length ≠ 32

structure Inv (s : St) (issued : List Bundle) : Prop where
  kept : Kept s.event s.link.trace issued
  link : s.link.Ok
  progress : s.event.reqInProgress = (s.link.receivingReply || s.blocked)
  idle : s.event.reqInProgress = false → s.event.queue = []
  blocked : s.blocked = true → s.link.receivingReply = false

variable {b : Bundle}

theorem sizes_marked (h : ∀ r ∈ b.requests, r.buffer.length ≠ 32) : ∀ msg ∈ b.marked, msg.length ≠ 32 := by
  intro msg hmsg
  obtain ⟨r, hr, hlen⟩ := mem_markFrom hmsg
  rw [hlen]
  exact h r hr

theorem parts_sent {l l' : Link} (h : l'.trace = l.trace ++ (multipart b.marked).map .part) :
    parts l'.trace = parts l.trace ++ b.transmission := by
  rw [h, parts_append, parts_map]
  rfl

variable {issued : List Bundle}

theorem sizes_snoc (h : ∀ b ∈ issued, ∀ r ∈ b.requests, r.buffer.length ≠ 32)
    (hb : ∀ r ∈ b.requests, r.buffer.length ≠ 32) : ∀ b' ∈ issued ++ [b], ∀ r ∈ b'.requests, r.buffer.length ≠ 32 := by
  intro b' hb'
  rcases mem_append.mp hb' with hb' | hb'
  · exact h b' hb'
  · obtain rfl := mem_singleton.mp hb'
    exact hb

theorem queued_ne_nil (b : Bundle) : b.queued ≠ [] := by
  intro h
  have hmsg := queueFrom_msg true b.parts b.last
  exact markFrom_ne_nil true b.parts b.last (hmsg.symm.trans (congrArg (List.map Prod.snd) h))

theorem pending_nil {pending : List Bundle} (h : pending.flatMap Bundle.queued = []) : pending = [] := by
  cases pending with
  | nil => rfl
  | cons b pending => exact absurd (append_eq_nil_iff.mp h).1 (queued_ne_nil b)

/-- While a request is in progress a bundle is queued, and the link is left alone. -/
theorem sendBundle_busy {l : Link} (h : Kept e l.trace issued)
    (hbusy : e.reqInProgress = true) (hb : ∀ r ∈ b.requests, r.buffer.length ≠ 32) :
    ∃ e', sendBundle e l b = .ok (e', l) ∧ Kept e' l.trace (issued ++ [b]) ∧ e'.reqInProgress = true := by
  obtain ⟨added, made, hadded, hsend⟩ := @sendFrom_busy e l true hbusy h.incomplete h.bundle b.parts b.last
  obtain ⟨sent, pending, rfl, hparts, hqueue⟩ := h.whole
  refine ⟨_, hsend, ⟨h.sendBlk, rfl, h.incomplete, ⟨sent, pending ++ [b], ?_, hparts, ?_⟩, sizes_snoc h.sizes hb⟩, hbusy⟩
  · rw [append_assoc]
  · show (e.queue ++ added).map (·.content) = _
    rw [map_append, hqueue, hadded, flatMap_append, flatMap_singleton]
    rfl

theorem sendBundle_idle {l : Link} (h : Kept e l.trace issued)
    (hok : l.Ok) (hr : l.receivingReply = false) (hidle : e.reqInProgress = false) (hqueue : e.queue = [])
    (hb : ∀ r ∈ b.requests, r.buffer.length ≠ 32) :
    ∃ e' l', sendBundle e l b = .ok (e', l') ∧ Kept e' l'.trace (issued ++ [b]) ∧ e'.reqInProgress = true ∧ l'.Ok
      ∧ l'.receivingReply = true := by
  obtain ⟨l', hsend, hok', hr', htrace⟩ := send_ok (markFrom_ne_nil true b.parts b.last) (sizes_marked hb) hok hr
  have hblk : l.send (e.sendBlk ++ markFrom true b.parts b.last) = .ok l' := by
    rw [h.sendBlk]
    exact hsend
  obtain ⟨sent, pending, rfl, hparts, hpending⟩ := h.whole
  obtain rfl : pending = [] := by
    rw [hqueue] at hpending
    exact pending_nil hpending.symm
  refine ⟨_, l', @sendFrom_idle e l l' true hidle hqueue h.bundle _ _ hblk,
    ⟨rfl, rfl, h.incomplete, ⟨sent ++ [b], [], ?_, ?_, ?_⟩, sizes_snoc h.sizes hb⟩, rfl, hok', hr'⟩
  · rw [append_nil, append_nil]
  · rw [parts_sent htrace, hparts, flatMap_append, flatMap_singleton]
  · exact congrArg (List.map _) hqueue

/-- What waits at the front goes out, and a reply is awaited then. -/
theorem unblockREQ_kept {l : Link} (h : Kept e l.trace issued) (hok : l.Ok)
    (hr : l.receivingReply = false) (hqueue : e.queue ≠ []) :
    ∃ e' l', unblockREQ e l = .ok (e', l') ∧ Kept e' l'.trace issued ∧ e'.reqInProgress = true ∧ l'.Ok
      ∧ l'.receivingReply = true := by
  obtain ⟨sent, pending, rfl, hparts, hpending⟩ := h.whole
  cases pending with
  | nil => exact absurd (map_eq_nil_iff.mp hpending) hqueue
  | cons b pending =>
    obtain ⟨queue, hun, hrest⟩ := @unqueue_bundle true _ _ _ _ hpending e.sendBlk
    obtain ⟨l', hsend, hok', hr', htrace⟩ := send_ok (markFrom_ne_nil true b.parts b.last)
      (sizes_marked (h.sizes b (mem_append_right sent mem_cons_self))) hok hr
    refine ⟨{ e with reqInProgress := true, queue := queue, sendBlk := [] }, l', ?_,
      ⟨rfl, h.bundle, h.incomplete, ⟨sent ++ [b], pending, ?_, ?_, hrest⟩, h.sizes⟩, rfl, hok', hr'⟩
    · rw [h.sendBlk, nil_append] at hun
      rw [unblockREQ, if_neg (fun hnil => hqueue (isEmpty_iff.mp hnil)), h.incomplete, h.sendBlk, hun]
      show (l.send (markFrom true b.parts b.last) >>= _) = _
      rw [hsend]
      rfl
    · rw [append_assoc]
      rfl
    · rw [parts_sent htrace, hparts, flatMap_append, flatMap_singleton]

/-- The bundles of a callback are queued, as the request whose reply is processed is still marked as in progress. -/
theorem callback_kept {l : Link} {bs : List Bundle} (h : Kept e l.trace issued)
    (hbusy : e.reqInProgress = true) (hbs : ∀ b ∈ bs, ∀ r ∈ b.requests, r.buffer.length ≠ 32) :
    ∃ e', callback e l bs = .ok (e', l) ∧ Kept e' l.trace (issued ++ bs) ∧ e'.reqInProgress = true := by
  induction bs generalizing e issued with
  | nil =>
    rw [append_nil]
    exact ⟨e, rfl, h, hbusy⟩
  | cons b bs ih =>
    obtain ⟨e₁, hsend, h₁, hbusy₁⟩ := sendBundle_busy h hbusy (hbs b mem_cons_self)
    obtain ⟨e', hrest, h', hbusy'⟩ := ih h₁ hbusy₁ (fun b' hb' => hbs b' (mem_cons_of_mem b hb'))
    rw [append_assoc] at h'
    refine ⟨e', ?_, h', hbusy'⟩
    rw [callback, hsend]
    exact hrest

theorem inv_start : Inv start [] :=
  ⟨⟨rfl, rfl, rfl, ⟨[], [], rfl, rfl, rfl⟩, fun b hb => absurd hb not_mem_nil⟩, ok_new, rfl, fun _ => rfl,
    fun h => by cases h⟩

variable {s : St}

theorem inv_bundle (h : Inv s issued)
    (hb : ∀ r ∈ b.requests, r.buffer.length ≠ 32) : ∃ s', step s (.bundle b) = some s' ∧ Inv s' (issued ++ [b]) := by
  cases hp : s.event.reqInProgress with
  | true =>
    obtain ⟨e', hsend, hkept, hbusy⟩ := sendBundle_busy h.kept hp hb
    refine ⟨{ s with event := e' }, ?_, ⟨hkept, h.link, ?_, fun hidle => ?_, h.blocked⟩⟩
    · rw [step, hsend]
      rfl
    · exact hbusy.trans (hp.symm.trans h.progress)
    · cases hbusy.symm.trans hidle
  | false =>
    obtain ⟨hr, hblocked⟩ := Bool.or_eq_false_iff.mp (hp.symm.trans h.progress).symm
    obtain ⟨e', l', hsend, hkept, hbusy, hok, hr'⟩ := sendBundle_idle h.kept h.link hr hp (h.idle hp) hb
    refine ⟨{ s with event := e', link := l' }, ?_, ⟨hkept, hok, ?_, fun hidle => ?_, fun hb' => ?_⟩⟩
    · rw [step, hsend]
      rfl
    · show e'.reqInProgress = (l'.receivingReply || s.blocked)
      rw [hbusy, hr']
      rfl
    · cases hbusy.symm.trans hidle
    · cases hblocked.symm.trans hb'

theorem send_nil {l : Link} (h : e.sendBlk = []) : l.send e.sendBlk = .ok l := by
  rw [h]
  rfl

theorem inv_reply {bs : List Bundle} {toBlock : Bool} (h : Inv s issued) (hr : s.link.receivingReply = true)
    (hbs : ∀ b ∈ bs, ∀ r ∈ b.requests, r.buffer.length ≠ 32) :
    ∃ s', step s (.reply toBlock bs) = some s' ∧ Inv s' (issued ++ bs) := by
  have hblocked : s.blocked = false := Bool.eq_false_iff.mpr fun hb => Bool.false_ne_true ((h.blocked hb).symm.trans hr)
  have hbusy : s.event.reqInProgress = true := by
    rw [h.progress, hr]
    rfl
  have hok := ok_answer h.link hr
  have hkept : Kept s.event (s.link.trace ++ [.answer]) issued := by
    obtain ⟨sent, pending, hissued, hparts, hqueue⟩ := h.kept.whole
    refine ⟨h.kept.sendBlk, h.kept.bundle, h.kept.incomplete, ⟨sent, pending, hissued, ?_, hqueue⟩, h.kept.sizes⟩
    rw [parts_append, hparts]
    exact append_nil _
  obtain ⟨e₁, hcall, hkept₁, hbusy₁⟩ := callback_kept (l := ⟨s.link.trace ++ [.answer], false⟩) hkept hbusy hbs
  have hpoll : ∀ {e' : SocketEvent} {l' : Link}, e'.sendBlk = [] →
      readEvent s.event ⟨s.link.trace ++ [.answer], false⟩ true true toBlock bs = .ok (e', l') →
      step s (.reply toBlock bs) = some ⟨{ e' with sendBlk := [] }, l', toBlock⟩ := by
    intro e' l' hblk hread
    simp only [step, poll, hread, bind, Except.bind, send_nil hblk, pure, Except.pure, hblocked]
    rfl
  cases toBlock with
  | true =>
    refine ⟨_, @hpoll e₁ _ hkept₁.sendBlk ?_,
      ⟨⟨rfl, hkept₁.bundle, hkept₁.incomplete, hkept₁.whole, hkept₁.sizes⟩, hok, hbusy₁, fun hidle => ?_, fun _ => rfl⟩⟩
    · rw [readEvent, hcall]
      rfl
    · cases hbusy₁.symm.trans hidle
  | false =>
    by_cases hqueue : e₁.queue = []
    · refine ⟨_, @hpoll { e₁ with reqInProgress := false } _ hkept₁.sendBlk ?_,
        ⟨⟨rfl, hkept₁.bundle, hkept₁.incomplete, hkept₁.whole, hkept₁.sizes⟩, hok, rfl, fun _ => hqueue, fun hb => by cases hb⟩⟩
      rw [readEvent, hcall]
      simp [bind, Except.bind, pure, Except.pure, hqueue]
    · obtain ⟨e', l', hun, hkept', hbusy', hok', hr'⟩ := unblockREQ_kept hkept₁ hok rfl hqueue
      refine ⟨_, @hpoll e' _ hkept'.sendBlk ?_,
        ⟨⟨rfl, hkept'.bundle, hkept'.incomplete, hkept'.whole, hkept'.sizes⟩, hok', ?_, fun hidle => ?_, fun hb => by cases hb⟩⟩
      · rw [readEvent, hcall]
        simp [bind, Except.bind, hqueue, hun]
      · show e'.reqInProgress = (l'.receivingReply || false)
        rw [hbusy', hr']
        rfl
      · cases hbusy'.symm.trans hidle

theorem inv_unblock (h : Inv s issued) (hb : s.blocked = true) (hqueue : s.event.queue ≠ []) :
    ∃ s', step s .unblock = some s' ∧ Inv s' issued := by
  obtain ⟨e', l', hun, hkept, hbusy, hok, hr⟩ := unblockREQ_kept h.kept h.link (h.blocked hb) hqueue
  refine ⟨⟨e', l', false⟩, ?_, ⟨hkept, hok, ?_, fun hidle => ?_, fun hb' => by cases hb'⟩⟩
  · rw [step, hun]
    rfl
  · show e'.reqInProgress = (l'.receivingReply || false)
    rw [hbusy, hr]
    rfl
  · cases hbusy.symm.trans hidle

/-! ## Every run -/

/-- An unblockREQ finds a queued message, and no message is 32 bytes long. -/
def Holds (s : St) (ev : Event) : Prop :=
  Possible s ev ∧ (∀ b ∈ ev.bundles, ∀ r ∈ b.requests, r.buffer.length ≠ 32)
    ∧ (ev.isUnblock = true → s.event.queue.isEmpty = false)

instance (s : St) (ev : Event) : Decidable (Possible s ev) :=
  match ev with
  | .bundle _ => inferInstanceAs (Decidable True)
  | .reply _ _ => inferInstanceAs (Decidable (s.link.receivingReply = true))
  | .unblock => inferInstanceAs (Decidable (s.blocked = true))

instance (s : St) (ev : Event) : Decidable (Holds s ev) := inferInstanceAs (Decidable (_ ∧ _))

theorem step_inv {ev : Event} (h : Inv s issued) (hev : Holds s ev) :
    ∃ s', step s ev = some s' ∧ Inv s' (issued ++ ev.bundles) := by
  obtain ⟨hposs, hsizes, hqueue⟩ := hev
  cases ev with
  | bundle b => exact inv_bundle h (hsizes b (mem_singleton_self b))
  | reply toBlock bs => exact inv_reply h hposs hsizes
  | unblock =>
    obtain ⟨s', hstep, h'⟩ := inv_unblock h hposs (isEmpty_eq_false_iff.mp (hqueue rfl))
    refine ⟨s', hstep, ?_⟩
    rw [Event.bundles, append_nil]
    exact h'

theorem queued_msg (pending : List Bundle) : (pending.flatMap Bundle.queued).map Prod.snd = pending.flatMap Bundle.marked := by
  rw [map_flatMap]
  exact congrArg (fun f => pending.flatMap f) (funext fun b => queueFrom_msg true b.parts b.last)

theorem disciplined_of_inv (h : Inv s issued) : Disciplined s issued := by
  refine ⟨h.link.inTurn, ?_, fun b _ => ⟨?_, fun i hi => ?_⟩, fun hqueue => ?_⟩
  · obtain ⟨sent, pending, hissued, hparts, hqueue⟩ := h.kept.whole
    refine ⟨sent, pending, hissued, hparts, ?_⟩
    have hmsg := congrArg (List.map Prod.snd) hqueue
    rw [map_map, queued_msg] at hmsg
    exact hmsg
  · rw [Bundle.requests, length_append, Bundle.marked, length_markFrom]
    rfl
  · obtain ⟨hfirst, hlast⟩ := headerFlag_markFrom true b.parts b.last i hi
    exact ⟨hfirst.trans (and_iff_right rfl), hlast⟩
  · cases hp : s.event.reqInProgress with
    | false => exact absurd (h.idle hp) hqueue
    | true =>
      rcases Bool.or_eq_true_iff.mp (hp.symm.trans h.progress).symm with hr | hb
      · left
        rw [h.link.balance, hr]
        exact Nat.lt_succ_self _
      · exact .inr hb

/-- A request whose fields are already encoded. -/
def request (payload : Bytes) : Request := ⟨version, 0, BitVec.ofNat 32 payload.length, payload, rfl, rfl⟩

/-- A blocked reply is unblocked while nothing waits, and the next bundle is stranded; a message of 32 bytes ends the
    process. -/
theorem unblocked_too_early :
    (∃ (es : List Event) (s : St), Meets step Possible start es ∧ exec step start es = some s
      ∧ ¬Disciplined s (es.flatMap Event.bundles))
    ∧ exec step start [.bundle ⟨[], request (List.replicate 16 0)⟩] = none := by
  refine ⟨?_, by decide⟩
  let es : List Event := [.bundle ⟨[], request [1]⟩, .reply true [], .unblock, .bundle ⟨[], request [2]⟩]
  obtain ⟨s, hrun, hqueue, hanswered, hblocked⟩ := @exec_ends _ _ step start es
    (fun s => s.event.queue.isEmpty = false ∧ answers s.link.trace = requests s.link.trace ∧ s.blocked = false) _ (by decide)
  refine ⟨es, s, by decide, hrun, fun h => ?_⟩
  rcases h.notStranded (isEmpty_eq_false_iff.mp hqueue) with hlt | hb
  · exact absurd hanswered (Nat.ne_of_lt hlt)
  · cases hblocked.symm.trans hb

/-- Every bundle goes out whole, once, in order and in its turn, and none is stranded. -/
theorem request_discipline (es : List Event) (h : Meets step Holds start es) :
    ∃ s, exec step start es = some s ∧ Disciplined s (es.flatMap Event.bundles) := by
  obtain ⟨s, hrun, hinv⟩ := @exec_of_meets _ _ step Holds _ (fun issued ev => issued ++ ev.bundles) Inv step_inv _ _ inv_start _ h
  rw [← flatMap_eq_foldl] at hinv
  exact ⟨s, hrun, disciplined_of_inv hinv⟩

/-- A bundle of two is queued by the callback of a blocked reply, and goes out when that is unblocked. -/
theorem unblocked_with_bundle :
    ∃ s, exec step start [.bundle ⟨[], request [1]⟩, .reply true [⟨[request [2]], request [3]⟩], .unblock] = some s
      ∧ Disciplined s [⟨[], request [1]⟩, ⟨[request [2]], request [3]⟩] :=
  request_discipline [.bundle ⟨[], request [1]⟩, .reply true [⟨[request [2]], request [3]⟩], .unblock] (by decide)

end DeepFabric.Wire.RequestSocket
