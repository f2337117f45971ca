/-
  DeepFabric.Distributed.BundleHandOff — messages from a bridge to the request sockets, and into the shim of the peer
  (fabricconnector/FabricCassiMessageQueue.cxx: FabricCassiBridgeCb::send; fabric/RealtimeFabric.cxx;
  cxx/io/MsgBundle.h: writer).

  send gathers the messages of a bundle and puts the bundle on the work queue with the last of them, as one command
  for the peer of that last message. The fabric's thread takes the items off the queue one by one. The array of
  `DEEP_ARRAY_BUNDLE` is not compiled in, so the receiver puts each message on its queue by itself.

  As built: a bundle goes to one peer whatever its messages say (`mixed_bundle`), a single message that finds the
  queue full is refused, and so is what the receiver has no room for, without a reply (`full_shim`). What a socket
  does with a transmission is in `Wire.RequestSocket`; the peers stay connected, and the link takes what it is given.
-/
import DeepFabric.Lib.Run
import DeepFabric.Wire.MsgBundle
import DeepFabric.Wire.RequestSocket

namespace DeepFabric.Distributed.BundleHandOff

open DeepFabric.Lib.Run DeepFabric.Wire List
open DeepFabric.Wire.MsgBundle (bundleSize bundlePreamble)
open DeepFabric.Wire.RequestSocket (oneMsg first middle position)
open Option (elim_none elim_some not_mem_none some)
open Function (update)

/-! ## Messages and bundles -/

structure FabricEnvelope where
  peerId : Nat
  msgId : BitVec 32
  /-- The version word of its header, with the flags. -/
  verFlags : BitVec 32
  fields : Bytes
  deriving DecidableEq

def FabricEnvelope.getSize (e : FabricEnvelope) : Nat := headerSize.toNat + e.fields.length
def FabricEnvelope.isFirst (e : FabricEnvelope) : Bool := firstFlag &&& e.verFlags ≠ 0
def FabricEnvelope.isLast (e : FabricEnvelope) : Bool := lastFlag &&& e.verFlags ≠ 0

structure BundleList where
  bundle : List FabricEnvelope
  totalByteSize : Nat

def BundleList.add (b : BundleList) (pcMsg : FabricEnvelope) : BundleList := ⟨b.bundle ++ [pcMsg], b.totalByteSize + pcMsg.getSize⟩

/-- What is on the work queue: a message, or a command with a bundle. -/
inductive Item where
  | message (e : FabricEnvelope)
  | bundled (peerId : Nat) (msgId : BitVec 32) (b : BundleList)

/-- A queue of 1024 << 4 slots, one of which stays empty. -/
def enqueue {α : Type} (queue : List α) (m : α) : Int × List α :=
  if 1024 <<< 4 ≤ queue.length + 1 then (-1, queue) else (0, queue ++ [m])

/-! ## What a socket is given -/

/-- What is written to a socket: an envelope, or a pack with the messages in it. -/
inductive Writer where
  | envelope (e : FabricEnvelope)
  | pack (verFlags : BitVec 32) (msgs : List FabricEnvelope)
  deriving DecidableEq

def Writer.verFlags : Writer → BitVec 32
  | .envelope e => e.verFlags
  | .pack verFlags _ => verFlags

/-- A call of sendREQ; `verFlags` is what the header says when it leaves. -/
structure Transmission where
  writer : Writer
  verFlags : BitVec 32
  last : Bool
  deriving DecidableEq

structure Socket where
  bundle : Nat
  sent : List Transmission

def Socket.new : Socket := ⟨first, []⟩

def Socket.sendREQ (k : Socket) (cRequest : Writer) (bLast : Bool) : Socket where
  bundle := if bLast then first else if first = k.bundle then middle else k.bundle
  sent := k.sent ++ [⟨cRequest, cRequest.verFlags ||| (position k.bundle bLast).1.getD 0, bLast⟩]

/-! ## Packs -/

structure Pack where
  msgs : List FabricEnvelope
  bufferLen : Nat
  written : Nat

/-- The constructor, and `open`. -/
def Pack.opened : Pack := ⟨[], bundleSize.toNat, bundlePreamble.toNat⟩

def Pack.remainingSpace (p : Pack) : Option Nat := if p.written > p.bufferLen then none else some (p.bufferLen - p.written)

def Pack.append (p : Pack) (pcMsg : FabricEnvelope) : Option Pack :=
  if p.bufferLen - p.written < pcMsg.getSize then none
  else some { p with msgs := p.msgs ++ [pcMsg], written := p.written + pcMsg.getSize }

/-- The messages of the pack, and the pack without its buffer. -/
def Pack.close (p : Pack) : Option (List FabricEnvelope × Pack) :=
  if p.written > p.bufferLen then none else some (p.msgs, ⟨[], 0, p.written⟩)

/-- A turn of processBundleCommand that packs. An exception ends it. -/
def packMsg (cPack : Pack) (iPackFlags : BitVec 32) (k : Socket) (pcQMsg : FabricEnvelope) (bLast : Bool) :
    Option (Pack × BitVec 32 × Socket) := do
  let iRemain ← cPack.remainingSpace
  let (cPack, iPackFlags, k) ←
    if iRemain ≥ pcQMsg.getSize then do
      let cPack ← cPack.append pcQMsg
      pure (cPack, iPackFlags, k)
    else do
      let (msgs, _) ← cPack.close
      let cPack ← Pack.opened.append pcQMsg
      pure (cPack, 0, k.sendREQ (.pack (version ||| iPackFlags) msgs) bLast)
  if bLast then do
    let (msgs, cPack) ← cPack.close
    pure (cPack, iPackFlags, k.sendREQ (.pack (version ||| (iPackFlags &&& lastFlag)) msgs) bLast)
  else pure (cPack, iPackFlags, k)

/-! ## The two threads -/

def minMessageSize : Nat := 10

/-- The loop of processBundleCommand. -/
def sendBundle (iAveSize : Nat) : Pack → BitVec 32 → Socket → List FabricEnvelope → Option Socket
  | _, _, k, [] => some k
  | cPack, iPackFlags, k, pcQMsg :: rest =>
    let bLast := pcQMsg.isLast
    if minMessageSize ≤ iAveSize then sendBundle iAveSize cPack iPackFlags (k.sendREQ (.envelope pcQMsg) bLast) rest
    else do
      let (cPack, iPackFlags, k) ← packMsg cPack iPackFlags k pcQMsg bLast
      sendBundle iAveSize cPack iPackFlags k rest

/-- m_pcOutBoundPeers. -/
abbrev Peers := Nat → Option Socket

/-- Bundles for a peer that is not known are dropped. -/
def processBundleCommand (peers : Peers) (iPeerId : Nat) (pcBundle : BundleList) : Option Peers :=
  let iAveSize := pcBundle.totalByteSize / pcBundle.bundle.length
  match peers iPeerId with
  | none => some peers
  | some pcOut => (sendBundle iAveSize .opened firstFlag pcOut pcBundle.bundle).map fun k => update peers iPeerId (some k)

/-- What consumeWorkItems does with an item. A message that is not a single one throws. -/
def processItem (peers : Peers) : Item → Option Peers
  | .message pcMsg =>
    if oneMsg &&& (pcMsg.verFlags ^^^ version) = oneMsg then
      match peers pcMsg.peerId with
      | none => some peers
      | some pcOut => some (update peers pcMsg.peerId (some (pcOut.sendREQ (.envelope pcMsg) true)))
    else none
  | .bundled iPeerId _ pcBundle => processBundleCommand peers iPeerId pcBundle

structure St where
  /-- m_pcBundle. -/
  bundle : Option BundleList
  /-- m_cCassiToFabric. -/
  queue : List Item
  peers : Peers
  /-- The messages for which send has returned 0. -/
  accepted : List FabricEnvelope

def start (joined : Nat → Bool) : St := ⟨none, [], fun iPeerId => if joined iPeerId then some .new else none, []⟩

/-- `FabricCassiBridgeCb::send`; `none` is abort(). -/
def send (s : St) (pcMsg : FabricEnvelope) : Option (Int × St) :=
  let iFlags := pcMsg.verFlags ^^^ version
  let accepted := s.accepted ++ [pcMsg]
  match s.bundle with
  | some pcBundle =>
    if firstFlag &&& iFlags = firstFlag then none
    else if lastFlag &&& iFlags = lastFlag then
      match enqueue s.queue (.bundled pcMsg.peerId pcMsg.msgId (pcBundle.add pcMsg)) with
      | (0, queue) => some (0, { s with bundle := none, queue := queue, accepted := accepted })
      | _ => none
    else some (0, { s with bundle := some (pcBundle.add pcMsg), accepted := accepted })
  | none =>
    if iFlags = 0 then none
    else if oneMsg &&& iFlags = oneMsg then
      match enqueue s.queue (.message pcMsg) with
      | (0, queue) => some (0, { s with queue := queue, accepted := accepted })
      | _ => some (-3, s)
    else if firstFlag &&& iFlags = firstFlag then
      some (0, { s with bundle := some ⟨[pcMsg], pcMsg.getSize⟩, accepted := accepted })
    else none

/-- A call of send, or a turn of consumeWorkItems. -/
inductive Event where
  | send (pcMsg : FabricEnvelope)
  | consume

def step (s : St) : Event → Option St
  | .send pcMsg => (send s pcMsg).map Prod.snd
  | .consume => match s.queue with
    | [] => some s
    | item :: queue => (processItem s.peers item).map fun peers => { s with queue := queue, peers := peers }

/-! ## The receiver -/

structure Shim where
  /-- m_cFabricToCassi. -/
  queue : List FabricEnvelope
  replies : Nat

def processShimReq (r : Shim) (verFlags : BitVec 32) (pcRxMsg : FabricEnvelope) : Int × Shim :=
  match enqueue r.queue pcRxMsg with
  | (0, queue) => (0, ⟨queue, if lastFlag &&& verFlags ≠ 0 then r.replies + 1 else r.replies⟩)
  | _ => (-1, r)

/-- The status of a message in the pack is not looked at. -/
def processPackReq (r : Shim) (msgs : List FabricEnvelope) : Int × Shim :=
  (0, msgs.foldl (fun r pcMsg => (processShimReq r pcMsg.verFlags pcMsg).2) r)

def receive (r : Shim) (t : Transmission) : Int × Shim :=
  match t.writer with
  | .envelope e => processShimReq r t.verFlags e
  | .pack _ msgs => processPackReq r msgs

/-! ## What is to hold -/

/-- Messages from the first one of a bundle on. -/
def Begins (es : List FabricEnvelope) : Prop := ∃ e rest, es = e :: rest ∧ e.isFirst = true ∧ ∀ e' ∈ rest, e'.isFirst = false

/-- A single message, or a bundle from its first message to its last. -/
structure Framed (es : List FabricEnvelope) : Prop where
  begins : Begins es
  ends : ∃ parts e, es = parts ++ [e] ∧ e.isLast = true ∧ ∀ e' ∈ parts, e'.isLast = false

def Item.messages : Item → List FabricEnvelope
  | .message e => [e]
  | .bundled _ _ b => b.bundle

/-- What send took and no socket has been given yet. -/
def St.waiting (s : St) : List FabricEnvelope := s.queue.flatMap Item.messages ++ s.bundle.elim [] BundleList.bundle

/-- A socket was given the messages for its peer, but for those that wait; whole bundles of them, each message marked as it was
    framed; and what is marked as the last gets its one reply, and nothing else a reply. -/
structure HandedOff (s : St) (iPeerId : Nat) (k : Socket) : Prop where
  passed : k.sent.map (·.writer) ++ (s.waiting.filter (·.peerId = iPeerId)).map .envelope =
    (s.accepted.filter (·.peerId = iPeerId)).map .envelope
  closed : ∃ bundles : List (List FabricEnvelope), (∀ b ∈ bundles, Framed b) ∧
    k.sent.map (fun t => (t.writer, t.last)) = bundles.flatten.map fun e => (.envelope e, e.isLast)
  replied : ∀ t ∈ k.sent, ∀ r : Shim, r.queue.length + 1 < 1024 <<< 4 →
    ∃ e, t.writer = .envelope e ∧ receive r t = (0, ⟨r.queue ++ [e], if t.last then r.replies + 1 else r.replies⟩)

/-- The messages are framed and go to joined peers, a bundle to one of them; and there is room for a bundle that is closed. -/
def Ok (s : St) : Event → Prop
  | .send pcMsg => (s.peers pcMsg.peerId).isSome = true ∧ pcMsg.isFirst = s.bundle.isNone ∧
      ∀ b ∈ s.bundle, (∀ e ∈ b.bundle, e.peerId = pcMsg.peerId) ∧ (pcMsg.isLast = true → s.queue.length + 1 < 1024 <<< 4)
  | .consume => True

instance (s : St) : (e : Event) → Decidable (Ok s e)
  | .send _ => inferInstanceAs (Decidable (_ ∧ _ ∧ ∀ b ∈ s.bundle, _))
  | .consume => inferInstanceAs (Decidable True)

/-! ## As built -/

def envelope (peerId : Nat) (flags : BitVec 32) : FabricEnvelope := ⟨peerId, 0, version ||| flags, []⟩

/-- A bundle with messages for two peers goes to the peer of its last message. -/
theorem mixed_bundle : ∃ s, exec step (start fun _ => true)
      [.send (envelope 1 firstFlag), .send (envelope 2 lastFlag), .consume] = some s ∧
    ((s.peers 1).map Socket.sent = some [] ∧ s.waiting = []) ∧
    (s.peers 2).map (fun k => k.sent.map (·.writer)) = some [.envelope (envelope 1 firstFlag), .envelope (envelope 2 lastFlag)] :=
  exec_ends (by decide)

/-- A receiver without room drops the message and does not reply. -/
theorem full_shim {r : Shim} (h : 1024 <<< 4 ≤ r.queue.length + 1) (verFlags : BitVec 32) (pcRxMsg : FabricEnvelope) :
    processShimReq r verFlags pcRxMsg = (-1, r) := by
  rw [processShimReq, enqueue, if_pos h]
  rfl

/-! ## Flags -/

/-- A flag other than the version is in the header exactly if it is in what is left of it without the version. -/
theorem flag_iff {i : Nat} (hi : 0 < i) (h32 : i < 32) (verFlags : BitVec 32) :
    BitVec.twoPow 32 i &&& (verFlags ^^^ version) = BitVec.twoPow 32 i ↔ BitVec.twoPow 32 i &&& verFlags ≠ 0 := by
  have hversion : (version : BitVec 32) = BitVec.twoPow 32 0 := rfl
  have hne : BitVec.twoPow 32 i ≠ 0#32 := by
    intro h
    have hbit := congrArg (BitVec.getLsbD · i) h
    simp [h32] at hbit
  have hbit : (verFlags ^^^ version).getLsbD i = verFlags.getLsbD i := by
    rw [hversion, BitVec.getLsbD_xor, BitVec.getLsbD_twoPow]
    simp [hi.ne]
  rw [BitVec.and_comm, BitVec.and_twoPow, BitVec.and_comm, BitVec.and_twoPow, hbit]
  by_cases hset : verFlags.getLsbD i = true
  · rw [if_pos hset]
    exact iff_of_true rfl hne
  · rw [if_neg hset]
    exact iff_of_false (fun h => hne h.symm) (fun h => h rfl)

theorem first_iff (e : FabricEnvelope) : firstFlag &&& (e.verFlags ^^^ version) = firstFlag ↔ e.isFirst = true := by
  rw [FabricEnvelope.isFirst, decide_eq_true_iff]
  exact flag_iff (by decide : 0 < 9) (by decide) _

theorem last_iff (e : FabricEnvelope) : lastFlag &&& (e.verFlags ^^^ version) = lastFlag ↔ e.isLast = true := by
  rw [FabricEnvelope.isLast, decide_eq_true_iff]
  exact flag_iff (by decide : 0 < 10) (by decide) _

theorem and_eq_iff {a b x : BitVec 32} : (a ||| b) &&& x = a ||| b ↔ a &&& x = a ∧ b &&& x = b := by
  constructor
  · intro h
    have hbits : ∀ i (hi : i < 32), ((a[i] || b[i]) && x[i]) = (a[i] || b[i]) := fun i hi => by
      rw [← BitVec.getElem_or, ← BitVec.getElem_and, h]
    constructor <;> (ext i hi; rw [BitVec.getElem_and]; grind)
  · rintro ⟨ha, hb⟩
    ext i hi
    rw [← ha, ← hb]
    simp only [BitVec.getElem_and, BitVec.getElem_or]
    grind

theorem single_iff (e : FabricEnvelope) :
    oneMsg &&& (e.verFlags ^^^ version) = oneMsg ↔ e.isFirst = true ∧ e.isLast = true := by
  rw [oneMsg, and_eq_iff, first_iff, last_iff]

variable {e : FabricEnvelope}

theorem not_last (h : e.isLast = false) : ¬lastFlag &&& (e.verFlags ^^^ version) = lastFlag := by
  rw [last_iff, h]
  exact Bool.false_ne_true

theorem marked_last (e : FabricEnvelope) (iBundle : Nat) :
    lastFlag &&& (e.verFlags ||| (position iBundle e.isLast).1.getD 0) ≠ 0 ↔ e.isLast = true := by
  have hflag : lastFlag &&& e.verFlags ≠ 0 ↔ e.isLast = true := by rw [FabricEnvelope.isLast, decide_eq_true_iff]
  simp only [BitVec.and_or_distrib_left, ne_eq, BitVec.ofNat_eq_ofNat, BitVec.or_eq_zero_iff]
  cases hlast : e.isLast with
  | true => exact iff_of_true (fun h => hflag.mpr hlast h.1) rfl
  | false =>
    have hpos : lastFlag &&& (position iBundle false).1.getD 0 = 0 := by
      by_cases hfirst : first = iBundle <;> simp [position, hfirst, lastFlag, firstFlag]
    have hzero : lastFlag &&& e.verFlags = 0 := not_not.mp fun h => Bool.false_ne_true (hlast.symm.trans (hflag.mp h))
    exact iff_of_false (fun h => h ⟨hzero, hpos⟩) Bool.false_ne_true

/-! ## Bundles are sent one message after the other -/

def sendEnvelope (k : Socket) (e : FabricEnvelope) : Socket := k.sendREQ (.envelope e) e.isLast

theorem sendBundle_direct {iAveSize : Nat} (h : minMessageSize ≤ iAveSize) (cPack : Pack) (iPackFlags : BitVec 32) (k : Socket)
    (es : List FabricEnvelope) : sendBundle iAveSize cPack iPackFlags k es = some (es.foldl sendEnvelope k) := by
  induction es generalizing k with
  | nil => rfl
  | cons e es ih =>
    rw [sendBundle, if_pos h]
    exact ih _

/-- The size that send adds up is at least that of the headers. -/
def BundleList.Counted (b : BundleList) : Prop := b.bundle ≠ [] ∧ headerSize.toNat * b.bundle.length ≤ b.totalByteSize

variable {b : BundleList}

theorem sends_direct (h : b.Counted) : minMessageSize ≤ b.totalByteSize / b.bundle.length := by
  have hpos : 0 < b.bundle.length := length_pos_iff.mpr h.1
  have h16 : headerSize.toNat = 16 := rfl
  have hsum := h.2
  rw [Nat.le_div_iff_mul_le hpos, minMessageSize]
  rw [h16] at hsum
  omega

/-! ## One item of the queue -/

def Item.peerId : Item → Nat
  | .message e => e.peerId
  | .bundled iPeerId _ _ => iPeerId

/-- What send puts on the queue. -/
structure Item.Ready (i : Item) : Prop where
  framed : Framed i.messages
  peer : ∀ e ∈ i.messages, e.peerId = i.peerId
  counted : ∀ iPeerId iMsgId b, i = .bundled iPeerId iMsgId b → b.Counted

variable {k : Socket}

theorem processItem_ready {i : Item} (h : i.Ready) {peers : Peers} (hk : peers i.peerId = some k) :
    processItem peers i = some (update peers i.peerId (some (i.messages.foldl sendEnvelope k))) := by
  cases i with
  | message e =>
    obtain ⟨e', rest, hes, hfirst, -⟩ := h.framed.begins
    obtain ⟨parts, e'', hes', hlast, -⟩ := h.framed.ends
    obtain ⟨rfl, -⟩ := List.cons.inj hes
    obtain ⟨-, he⟩ := append_inj' (show [] ++ [_] = parts ++ [e''] from hes') rfl
    obtain rfl := singleton_inj.mp he
    simp only [Item.peerId] at hk
    rw [processItem, if_pos ((single_iff e).mpr ⟨hfirst, hlast⟩), hk]
    simp only [Item.peerId, Item.messages, foldl_cons, foldl_nil, sendEnvelope, hlast]
  | bundled iPeerId iMsgId b =>
    simp only [Item.peerId] at hk
    simp only [processItem, processBundleCommand, hk]
    rw [sendBundle_direct (sends_direct (h.counted _ _ _ rfl))]
    rfl

/-! ## Runs -/

theorem begins_concat {es : List FabricEnvelope} (h : Begins es) (he : e.isFirst = false) : Begins (es ++ [e]) := by
  obtain ⟨e', rest, rfl, hfirst, hrest⟩ := h
  exact ⟨e', rest ++ [e], rfl, hfirst, forall_mem_append.mpr ⟨hrest, forall_mem_singleton.mpr he⟩⟩

theorem counted_add (h : b.Counted) (e : FabricEnvelope) : (b.add e).Counted := by
  refine ⟨append_ne_nil_of_right_ne_nil _ (cons_ne_nil _ _), ?_⟩
  rw [BundleList.add, length_append, Nat.mul_add]
  exact Nat.add_le_add h.2 (Nat.le_add_right _ _)

/-- A bundle without its last message. -/
structure BundleList.Building (b : BundleList) : Prop where
  counted : b.Counted
  begins : Begins b.bundle
  open_ : ∀ e ∈ b.bundle, e.isLast = false

theorem building_add (h : b.Building) (hfirst : e.isFirst = false) (hlast : e.isLast = false) :
    (b.add e).Building :=
  ⟨counted_add h.counted e, begins_concat h.begins hfirst, forall_mem_append.mpr ⟨h.open_, forall_mem_singleton.mpr hlast⟩⟩

structure Inv (s : St) : Prop where
  ready : ∀ i ∈ s.queue, i.Ready ∧ (s.peers i.peerId).isSome = true
  building : ∀ b ∈ s.bundle, b.Building
  passed : ∀ iPeerId k, s.peers iPeerId = some k → ∃ bundles : List (List FabricEnvelope), (∀ b ∈ bundles, Framed b) ∧
    k = bundles.flatten.foldl sendEnvelope .new ∧
    bundles.flatten ++ s.waiting.filter (·.peerId = iPeerId) = s.accepted.filter (·.peerId = iPeerId)

theorem inv_start (joined : Nat → Bool) : Inv (start joined) := by
  refine ⟨fun i hi => absurd hi not_mem_nil, fun b hb => absurd hb (not_mem_none b), fun iPeerId k hk => ?_⟩
  refine ⟨[], fun b hb => absurd hb not_mem_nil, ?_, rfl⟩
  exact (some.inj (Option.ite_none_right_eq_some.mp hk).2).symm

variable {s : St}

theorem Inv.snoc {s' : St} (h : Inv s) {iPeerId : Nat} (hk : s'.peers iPeerId = some k)
    (hpeers : s'.peers = s.peers) (hwait : s'.waiting = s.waiting ++ [e]) (hacc : s'.accepted = s.accepted ++ [e]) :
    ∃ bundles : List (List FabricEnvelope), (∀ b ∈ bundles, Framed b) ∧ k = bundles.flatten.foldl sendEnvelope .new ∧
      bundles.flatten ++ s'.waiting.filter (·.peerId = iPeerId) = s'.accepted.filter (·.peerId = iPeerId) := by
  rw [hpeers] at hk
  obtain ⟨bundles, hframed, hsent, heq⟩ := h.passed iPeerId k hk
  refine ⟨bundles, hframed, hsent, ?_⟩
  rw [hwait, hacc, filter_append, filter_append, ← append_assoc, heq]

theorem enqueue_room {α : Type} {queue : List α} (h : queue.length + 1 < 1024 <<< 4) (m : α) : enqueue queue m = (0, queue ++ [m]) :=
  if_neg (Nat.not_le.mpr h)

theorem ready_message (hfirst : e.isFirst = true) (hlast : e.isLast = true) : (Item.message e).Ready where
  framed := ⟨⟨e, [], rfl, hfirst, forall_mem_nil _⟩, ⟨[], e, rfl, hlast, forall_mem_nil _⟩⟩
  peer := forall_mem_singleton.mpr rfl
  counted := nofun

variable {pcMsg : FabricEnvelope}

theorem ready_bundled (h : b.Building) (hfirst : pcMsg.isFirst = false)
    (hlast : pcMsg.isLast = true) (hpeer : ∀ e ∈ b.bundle, e.peerId = pcMsg.peerId) :
    (Item.bundled pcMsg.peerId pcMsg.msgId (b.add pcMsg)).Ready where
  framed := ⟨begins_concat h.begins hfirst, ⟨b.bundle, pcMsg, rfl, hlast, h.open_⟩⟩
  peer := forall_mem_append.mpr ⟨hpeer, forall_mem_singleton.mpr rfl⟩
  counted _ _ _ hb := by
    obtain ⟨-, -, rfl⟩ := Item.bundled.inj hb
    exact counted_add h.counted pcMsg

theorem Inv.queued (h : Inv s) {i : Item} (hi : i.Ready) (hjoined : (s.peers i.peerId).isSome = true) :
    ∀ i' ∈ s.queue ++ [i], i'.Ready ∧ (s.peers i'.peerId).isSome = true :=
  forall_mem_append.mpr ⟨h.ready, forall_mem_singleton.mpr ⟨hi, hjoined⟩⟩

theorem send_none (hb : s.bundle = none) (h : Inv s) (hfirst : pcMsg.isFirst = true)
    (hjoined : (s.peers pcMsg.peerId).isSome = true) : ∃ iRetVal s', send s pcMsg = some (iRetVal, s') ∧ Inv s' := by
  have hflag := (first_iff pcMsg).mpr hfirst
  have hflags : ¬pcMsg.verFlags ^^^ version = 0 := by
    intro h0
    rw [h0] at hflag
    exact absurd hflag (by decide)
  simp only [send, hb]
  rw [if_neg hflags]
  by_cases hlast : pcMsg.isLast = true
  · rw [if_pos ((single_iff pcMsg).mpr ⟨hfirst, hlast⟩)]
    by_cases hroom : s.queue.length + 1 < 1024 <<< 4
    · rw [enqueue_room hroom]
      refine ⟨_, _, rfl, h.queued (ready_message hfirst hlast) hjoined, fun b hb' => ?_, fun iPeerId k hk => ?_⟩
      · exact absurd hb' (not_mem_none b)
      · refine h.snoc hk rfl ?_ rfl
        simp only [St.waiting, hb, flatMap_append, flatMap_singleton, Item.messages, elim_none, append_nil]
    · rw [enqueue, if_pos (Nat.not_lt.mp hroom)]
      exact ⟨_, _, rfl, h⟩
  · rw [if_neg fun hone => hlast ((single_iff pcMsg).mp hone).2, if_pos hflag]
    have hnot : pcMsg.isLast = false := Bool.eq_false_iff.mpr hlast
    refine ⟨_, _, rfl, h.ready, fun b hb' => ?_, fun iPeerId k hk => ?_⟩
    · cases hb'
      refine ⟨⟨cons_ne_nil _ _, ?_⟩, ⟨pcMsg, [], rfl, hfirst, forall_mem_nil _⟩, forall_mem_singleton.mpr hnot⟩
      rw [length_singleton, Nat.mul_one, FabricEnvelope.getSize]
      exact Nat.le_add_right _ _
    · refine h.snoc hk rfl ?_ rfl
      simp only [St.waiting, hb, elim_none, elim_some, append_nil]

theorem send_some (hb : s.bundle = some b) (h : Inv s)
    (hok : Ok s (.send pcMsg)) : ∃ iRetVal s', send s pcMsg = some (iRetVal, s') ∧ Inv s' := by
  obtain ⟨hjoined, hframe, hbundle⟩ := hok
  obtain ⟨hpeer, hroom⟩ := hbundle b hb
  have hbuilding := h.building b hb
  have hfirst : pcMsg.isFirst = false := by rw [hframe, hb]; rfl
  simp only [send, hb]
  rw [if_neg fun hf => Bool.false_ne_true (hfirst.symm.trans ((first_iff pcMsg).mp hf))]
  by_cases hlast : pcMsg.isLast = true
  · rw [if_pos ((last_iff pcMsg).mpr hlast), enqueue_room (hroom hlast)]
    have hready := ready_bundled hbuilding hfirst hlast hpeer
    refine ⟨_, _, rfl, h.queued hready hjoined, fun b hb' => absurd hb' (not_mem_none b), fun iPeerId k hk => ?_⟩
    refine h.snoc hk rfl ?_ rfl
    simp only [St.waiting, hb, flatMap_append, flatMap_singleton, Item.messages, BundleList.add, elim_none,
      elim_some, append_nil, append_assoc]
  · have hnot : pcMsg.isLast = false := Bool.eq_false_iff.mpr hlast
    rw [if_neg (not_last hnot)]
    refine ⟨_, _, rfl, h.ready, fun b' hb' => ?_, fun iPeerId k hk => ?_⟩
    · cases hb'
      exact building_add hbuilding hfirst hnot
    · refine h.snoc hk rfl ?_ rfl
      simp only [St.waiting, hb, BundleList.add, elim_some, append_assoc]

/-- A turn of consumeWorkItems takes the item at the front, and nothing else changes. -/
theorem consume_inv (h : Inv s) : ∃ s', step s .consume = some s' ∧ Inv s' ∧ s'.queue = s.queue.tail ∧
    s'.bundle = s.bundle ∧ s'.accepted = s.accepted := by
  cases hq : s.queue with
  | nil => exact ⟨s, by simp only [step, hq], h, hq, rfl, rfl⟩
  | cons i queue =>
    obtain ⟨hi, hjoined⟩ := h.ready i (hq ▸ mem_cons_self)
    obtain ⟨k, hk⟩ := Option.isSome_iff_exists.mp hjoined
    have hstep : step s .consume = some { s with
        queue := queue
        peers := update s.peers i.peerId (some (i.messages.foldl sendEnvelope k)) } := by
      simp only [step, hq]
      rw [processItem_ready hi hk]
      rfl
    refine ⟨_, hstep, ⟨fun i' hi' => ?_, h.building, fun iPeerId k' hk' => ?_⟩, rfl, rfl, rfl⟩
    · obtain ⟨hready, hsome⟩ := h.ready i' (hq ▸ mem_cons_of_mem i hi')
      refine ⟨hready, ?_⟩
      show (update s.peers i.peerId _ i'.peerId).isSome = true
      rw [Function.update_apply]
      split
      · rfl
      · exact hsome
    · have hwait : s.waiting = i.messages ++ (queue.flatMap Item.messages ++ s.bundle.elim [] BundleList.bundle) := by
        rw [St.waiting, hq, flatMap_cons, append_assoc]
      have hk' : update s.peers i.peerId (some (i.messages.foldl sendEnvelope k)) iPeerId = some k' := hk'
      by_cases hpeer : iPeerId = i.peerId
      · rw [hpeer] at hk' ⊢
        rw [Function.update_self] at hk'
        obtain rfl := some.inj hk'
        obtain ⟨bundles, hframed, rfl, heq⟩ := h.passed _ k hk
        have hall : i.messages.filter (·.peerId = i.peerId) = i.messages :=
          filter_eq_self.mpr fun e he => decide_eq_true (hi.peer e he)
        refine ⟨bundles ++ [i.messages], forall_mem_append.mpr ⟨hframed, forall_mem_singleton.mpr hi.framed⟩, ?_, ?_⟩
        · rw [flatten_append, flatten_singleton, foldl_append]
        · rw [← heq, hwait, filter_append, hall, flatten_append, flatten_singleton, append_assoc]
          rfl
      · rw [Function.update_of_ne hpeer] at hk'
        obtain ⟨bundles, hframed, hsent, heq⟩ := h.passed iPeerId k' hk'
        have hnone : i.messages.filter (·.peerId = iPeerId) = [] :=
          filter_eq_nil_iff.mpr fun e he hd => hpeer ((of_decide_eq_true hd).symm.trans (hi.peer e he))
        refine ⟨bundles, hframed, hsent, ?_⟩
        rw [← heq, hwait, filter_append, hnone]
        rfl

theorem step_inv (h : Inv s) {ev : Event} (hok : Ok s ev) : ∃ s', step s ev = some s' ∧ Inv s' := by
  cases ev with
  | send pcMsg =>
    have hsent : ∃ iRetVal s', send s pcMsg = some (iRetVal, s') ∧ Inv s' := by
      cases hb : s.bundle with
      | none => exact send_none hb h (hok.2.1.trans (by rw [hb]; rfl)) hok.1
      | some b => exact send_some hb h hok
    obtain ⟨iRetVal, s', hsend, hinv⟩ := hsent
    exact ⟨s', by rw [step, hsend]; rfl, hinv⟩
  | consume =>
    obtain ⟨s', hstep, hinv, -⟩ := consume_inv h
    exact ⟨s', hstep, hinv⟩

theorem consume_all (h : Inv s) {n : Nat} (hn : s.queue.length = n) :
    ∃ s', exec step s (List.replicate n .consume) = some s' ∧ Inv s' ∧ s'.queue = [] ∧ s'.bundle = s.bundle ∧ s'.accepted = s.accepted := by
  induction n generalizing s with
  | zero => exact ⟨s, rfl, h, length_eq_zero_iff.mp hn, rfl, rfl⟩
  | succ n ih =>
    obtain ⟨s1, hstep, hinv, hq, hb, hacc⟩ := consume_inv h
    obtain ⟨s', hrun, hinv', hempty, hb', hacc'⟩ := ih hinv (by rw [hq, length_tail, hn]; rfl)
    refine ⟨s', ?_, hinv', hempty, hb'.trans hb, hacc'.trans hacc⟩
    rw [replicate_succ, exec, hstep]
    exact hrun

/-! ## What the sockets were given, and the replies -/

theorem sent_foldl (es : List FabricEnvelope) (k : Socket) :
    (es.foldl sendEnvelope k).sent.map (fun t => (t.writer, t.last)) =
      k.sent.map (fun t => (t.writer, t.last)) ++ es.map fun e => (.envelope e, e.isLast) := by
  induction es generalizing k with
  | nil => exact (append_nil _).symm
  | cons e es ih =>
    rw [foldl_cons, ih, sendEnvelope, Socket.sendREQ, map_append, append_assoc]
    rfl

/-- Every transmission is a message, and its header says whether it is the last. -/
theorem mem_sent {es : List FabricEnvelope} {t : Transmission} (h : t ∈ (es.foldl sendEnvelope k).sent) :
    t ∈ k.sent ∨ ∃ e, t.writer = .envelope e ∧ (lastFlag &&& t.verFlags ≠ 0 ↔ t.last = true) := by
  induction es generalizing k with
  | nil => exact .inl h
  | cons e es ih =>
    rcases ih h with hin | hnew
    · rcases mem_append.mp hin with hold | hlast
      · exact .inl hold
      · rw [mem_singleton.mp hlast]
        exact .inr ⟨e, rfl, marked_last e k.bundle⟩
    · exact .inr hnew

theorem handed_off_of_inv (h : Inv s) {iPeerId : Nat} (hk : s.peers iPeerId = some k) :
    HandedOff s iPeerId k := by
  obtain ⟨bundles, hframed, rfl, heq⟩ := h.passed iPeerId k hk
  have hsent := sent_foldl bundles.flatten .new
  refine ⟨?_, ⟨bundles, hframed, hsent⟩, fun t ht r hroom => ?_⟩
  · have hwriters := congrArg (List.map Prod.fst) hsent
    rw [map_map, map_append, map_map, map_map] at hwriters
    rw [← heq, map_append]
    exact congrArg (· ++ _) hwriters
  · rcases mem_sent ht with hin | ⟨e, hwriter, hlast⟩
    · exact absurd hin not_mem_nil
    · refine ⟨e, hwriter, ?_⟩
      rw [receive, hwriter]
      simp only [processShimReq, enqueue_room hroom, hlast]

/-- Whatever the two threads do in which order: no message is lost, sent twice, out of order or to another peer, bundles are
    sent whole, and what is on the queue is on its way. -/
theorem handed_off {joined : Nat → Bool} {es : List Event} (h : Meets step Ok (start joined) es) :
    ∃ s, exec step (start joined) es = some s ∧ (∀ iPeerId k, s.peers iPeerId = some k → HandedOff s iPeerId k) ∧
      ∃ s', exec step s (List.replicate s.queue.length .consume) = some s' ∧
        (s'.queue = [] ∧ s'.bundle = s.bundle ∧ s'.accepted = s.accepted) ∧
        ∀ iPeerId k, s'.peers iPeerId = some k → HandedOff s' iPeerId k := by
  obtain ⟨s, hrun, hinv⟩ :=
    @exec_of_meets _ _ step Ok Unit (fun r _ => r) (fun s _ => Inv s) (fun h hok => step_inv h hok) _ () (inv_start joined) _ h
  obtain ⟨s', hrun', hinv', hkept⟩ := consume_all hinv rfl
  exact ⟨s, hrun, fun _ _ hk => handed_off_of_inv hinv hk, s', hrun', hkept, fun _ _ hk => handed_off_of_inv hinv' hk⟩

/-- A bundle for one peer between single messages for another, with the fabric's thread in between. -/
def exchange : List Event :=
  [.send (envelope 1 oneMsg), .send (envelope 2 firstFlag), .consume, .send (envelope 2 0), .send (envelope 2 lastFlag),
    .send (envelope 1 oneMsg), .consume]

theorem handed_off_exchange : ∃ s s', exec step (start fun iPeerId => iPeerId < 3) exchange = some s ∧
    exec step s (List.replicate s.queue.length .consume) = some s' ∧ s'.queue = [] ∧ s'.bundle = s.bundle :=
  have ⟨s, hrun, _, s', hrun', ⟨hq, hb, _⟩, _⟩ := @handed_off (fun iPeerId => iPeerId < 3) exchange (by decide)
  ⟨s, s', hrun, hrun', hq, hb⟩

end DeepFabric.Distributed.BundleHandOff
