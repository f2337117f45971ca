/-
  DeepFabric.Platform.LinkManager — the sockets that are polled (io/LinkManager.cxx).

  A listening or an outgoing socket is registered together with a monitor socket, under its address, its handle and
  its callback; a native descriptor under its number. After every change `RenderPollItems` writes the array of what
  is polled, and the array of the callbacks beside it, from these tables.

  As built `monitorSocketState` fails before anything is rendered, and `close` finds no name for the new handle:
  the socket stays in the tables and in the counter (`half_registered`), and `RenderPollItems` leaves out the entry
  of its monitor from then on. And the name of a closed socket's monitor stays in the reverse table.

  Left out: what is sent and received, and what ZMQ does with a socket. A run gives what its calls return.
-/
import DeepFabric.Lib.Run

namespace DeepFabric.Platform.LinkManagers

open DeepFabric.Lib.Run List Function
open Function (update)
open Option (bind bind_eq_bind bind_some isSome_iff_exists map_eq_none_iff map_some)
open Prod (fst mk snd)

/-- `address` is where the info was allocated. -/
structure SocketInfo (H : Type) where
  socket : H
  monitor : Option H
  address : Nat

/-- A callback that was given, or the `m_cMonitorCb` of the info of a socket. -/
inductive Callback (H C : Type) where
  | given (callback : C)
  | monitorCb (socket : H)
  deriving DecidableEq

/-- A name the reverse table points to: a string of its own, or the `m_cMonitorSockName` of an info. -/
inductive SockName (N : Type) where
  | own (name : N)
  | monitorSockName (info : Nat)

structure PollItem (H : Type) where
  socket : Option H
  fd : Int
  deriving DecidableEq

/-- `written` counts what the last `RenderPollItems` wrote; an array is `none` where nothing was written. -/
structure LinkManager (N H C : Type) where
  iSockets : Nat
  iSocketsGrowth : Nat
  serverSockets : List (N × SocketInfo H)
  outgoing : List (N × SocketInfo H)
  callbacks : H → Option (Callback H C)
  revSockMap : H → Option (SockName N)
  nativeCbs : List (Int × Option C)
  pollItems : List (Option (PollItem H))
  pollToCallback : List (Option (Callback H C))
  allocated : Nat
  written : Nat

/-- What the ZMQ calls of an add return; a null handle is `none`, and `attach` is `zmq_bind` or `zmq_connect`. -/
structure Zmq (H : Type) where
  socket : Option H
  attach : Int
  linger : Int
  keepalive : Int
  keepaliveIdle : Int
  keepaliveIntvl : Int
  keepaliveCnt : Int
  socketMonitor : Int
  pair : Option H

/-- The socket of `addRepSocket`, unless a call on it fails. -/
def openRep {H : Type} (zmq : Zmq H) : Option H := do
  let socket ← zmq.socket
  if zmq.attach ≠ 0 then none
  else if zmq.linger ≠ 0 then none
  else some socket

/-- The socket of `addReqSocket`, unless a call on it fails. -/
def openReq {H : Type} (zmq : Zmq H) : Option H := do
  let socket ← zmq.socket
  if zmq.attach ≠ 0 then none
  else if zmq.linger ≠ 0 then none
  else if 0 > zmq.keepalive then none
  else if 0 > zmq.keepaliveIdle then none
  else if 0 > zmq.keepaliveIntvl then none
  else if 0 > zmq.keepaliveCnt then none
  else some socket

/-- How a call ends. -/
inductive Outcome where
  | returned (status : Nat)
  | thrown
  deriving DecidableEq

inductive Ev (N H C : Type) where
  | addRepSocket (server : N) (callback : Option C) (zmq : Zmq H)
  | addReqSocket (outgoing : N) (callback : Option C) (zmq : Zmq H)
  | addNativeSocket (fd : Int) (callback : Option C)
  | removeNativeSocket (fd : Int)
  | close (sendId : H)

theorem openRep_some {H : Type} {zmq : Zmq H} : ∀ x ∈ openRep zmq, zmq.socket = some x := fun x hx => by
  obtain ⟨socket, hsocket, hx⟩ := Option.bind_eq_some_iff.mp hx
  split_ifs at hx
  exact hsocket.trans hx

theorem openReq_some {H : Type} {zmq : Zmq H} : ∀ x ∈ openReq zmq, zmq.socket = some x := fun x hx => by
  obtain ⟨socket, hsocket, hx⟩ := Option.bind_eq_some_iff.mp hx
  split_ifs at hx
  exact hsocket.trans hx

section

variable {N H C : Type} [DecidableEq N] [DecidableEq H]

/-- The arrays while they are written. -/
structure Rendering (H C : Type) where
  i : Nat
  items : List (Option (PollItem H))
  callbacks : List (Option (Callback H C))
  written : Nat

namespace Rendering

/-- Writes an entry; nothing if it lies behind an array. -/
def write (r : Rendering H C) (item : PollItem H) (callback : Callback H C) : Option (Rendering H C) :=
  if r.i < r.items.length ∧ r.i < r.callbacks.length then
    some ⟨r.i + 1, r.items.set r.i (some item), r.callbacks.set r.i (some callback), r.written + 1⟩
  else none

/-- The entries of a socket; nothing if it has no callback, where the source aborts. -/
def socket (callbacks : H → Option (Callback H C)) (r : Rendering H C) (info : SocketInfo H) : Option (Rendering H C) := do
  let callback ← callbacks info.socket
  let r ← r.write ⟨some info.socket, 0⟩ callback
  match info.monitor with
  | some monitor => r.write ⟨some monitor, 0⟩ (.monitorCb info.socket)
  | none => some { r with i := r.i + 1 } -- the place is left out

def native (r : Rendering H C) (fd : Int) : Option C → Option (Rendering H C)
  | some callback => r.write ⟨none, fd⟩ (.given callback)
  | none => some r

end Rendering

/-- What a table has under a key. -/
def get {K V : Type} [DecidableEq K] (table : List (K × V)) (key : K) : Option V := (table.find? fun e => e.1 = key).map snd

def withMonitor (info : Nat) (monitor : H) (e : N × SocketInfo H) : N × SocketInfo H :=
  if e.2.address = info then (e.1, { e.2 with monitor := some monitor }) else e

namespace LinkManager

def new : LinkManager N H C := ⟨0, 10, [], [], fun _ => none, fun _ => none, [], List.replicate 10 none, List.replicate 10 none, 0, 0⟩

/-- The outgoing sockets or the listening ones. -/
def table (s : LinkManager N H C) (outgoing : Bool) : List (N × SocketInfo H) := bif outgoing then s.outgoing else s.serverSockets

def setTable (s : LinkManager N H C) (outgoing : Bool) (l : List (N × SocketInfo H)) : LinkManager N H C :=
  { s with
    serverSockets := bif outgoing then s.serverSockets else l
    outgoing := bif outgoing then l else s.outgoing }

/-- The arrays are grown once at most, and lose what they hold. -/
def grow (s : LinkManager N H C) : LinkManager N H C :=
  if s.iSockets > s.iSocketsGrowth then
    { s with
      iSocketsGrowth := s.iSocketsGrowth + 10
      pollItems := List.replicate (s.iSocketsGrowth + 10) none
      pollToCallback := List.replicate (s.iSocketsGrowth + 10) none }
  else s

/-- The maps are listed in the order of their hash tables; here in that of their lists. -/
def RenderPollItems (s : LinkManager N H C) : Option (LinkManager N H C) := do
  let s := s.grow
  let r : Rendering H C := ⟨0, s.pollItems, s.pollToCallback, 0⟩
  let r ← s.serverSockets.foldlM (fun r e => r.socket s.callbacks e.2) r
  let r ← s.outgoing.foldlM (fun r e => r.socket s.callbacks e.2) r
  let r ← s.nativeCbs.foldlM (fun r e => r.native e.1 e.2) r
  some { s with pollItems := r.items, pollToCallback := r.callbacks, written := r.written }

variable (monitorSockName : H → N)

/-- The string a name points to; nothing if its info was deleted. -/
def readName (s : LinkManager N H C) : SockName N → Option N
  | .own name => some name
  | .monitorSockName info => ((s.serverSockets ++ s.outgoing).find? fun e => e.2.address = info).map fun e => monitorSockName e.2.socket

/-- The rest of `close`, once the info is out of its table. -/
def closeInfo (s : LinkManager N H C) (info : SocketInfo H) : Option (LinkManager N H C × Nat) := do
  let s := { s with callbacks := update s.callbacks info.socket none, iSockets := s.iSockets - 1 }
  let s := match info.monitor with
    | some monitor => { s with callbacks := update s.callbacks monitor none, iSockets := s.iSockets - 1 }
    | none => s
  let s ← s.RenderPollItems
  some ({ s with revSockMap := update s.revSockMap info.socket none }, 0)

def close (s : LinkManager N H C) (sendId : H) : Option (LinkManager N H C × Nat) :=
  match s.revSockMap sendId with
  | none => some (s, 1)
  | some p => do
    let name ← s.readName monitorSockName p
    match (get s.serverSockets name).filter fun info => info.socket = sendId with
    | some info => (s.setTable false (s.serverSockets.filter fun e => e.1 ≠ name)).closeInfo info
    | none =>
      match (get s.outgoing name).filter fun info => info.socket = sendId with
      | some info => (s.setTable true (s.outgoing.filter fun e => e.1 ≠ name)).closeInfo info
      | none => some (s, 1)

/-- The info at an address gets its monitor. -/
def setMonitor (s : LinkManager N H C) (info : Nat) (monitor : H) : LinkManager N H C :=
  { s with serverSockets := s.serverSockets.map (withMonitor info monitor), outgoing := s.outgoing.map (withMonitor info monitor) }

def monitorSocketState (s : LinkManager N H C) (info : SocketInfo H) (zmq : Zmq H) : Option (LinkManager N H C × Nat) :=
  if zmq.socketMonitor = -1 then some (s, 1)
  else
    match zmq.pair with
    | none => some (s, 2)
    | some monitor => do
      let s := s.setMonitor info.address monitor
      let s := { s with callbacks := update s.callbacks monitor (some (.monitorCb info.socket)), iSockets := s.iSockets + 1 }
      let s ← s.RenderPollItems
      some ({ s with revSockMap := update s.revSockMap monitor (some (.monitorSockName info.address)) }, 0)

/-- The part of the two adds behind the calls on the socket. -/
def register (s : LinkManager N H C) (outgoing : Bool) (name : N) (callback : Option C) (socket : H) (zmq : Zmq H) :
    Option (LinkManager N H C × Outcome) := do
  let info : SocketInfo H := ⟨socket, none, s.allocated⟩
  let s := s.setTable outgoing (s.table outgoing ++ [(name, info)])
  let s := { s with
    allocated := s.allocated + 1
    callbacks := update s.callbacks socket (callback.map .given)
    iSockets := s.iSockets + 1 }
  let (s, status) ← s.monitorSocketState info zmq
  if status ≠ 0 then do
    let (s, _) ← s.close monitorSockName socket
    some (s, .thrown)
  else some ({ s with revSockMap := update s.revSockMap socket (some (.own name)) }, .returned 0)

/-- An add of a socket whose calls gave `opened`. -/
def addSocket (s : LinkManager N H C) (outgoing : Bool) (name : N) (callback : Option C) (opened : Option H) (zmq : Zmq H) :
    Option (LinkManager N H C × Outcome) :=
  if (get (s.table outgoing) name).isSome then some (s, .thrown)
  else
    match opened with
    | none => some (s, .thrown)
    | some socket => s.register monitorSockName outgoing name callback socket zmq

def addRepSocket (s : LinkManager N H C) (server : N) (callback : Option C) (zmq : Zmq H) : Option (LinkManager N H C × Outcome) :=
  s.addSocket monitorSockName false server callback (openRep zmq) zmq

def addReqSocket (s : LinkManager N H C) (outgoing : N) (callback : Option C) (zmq : Zmq H) : Option (LinkManager N H C × Outcome) :=
  s.addSocket monitorSockName true outgoing callback (openReq zmq) zmq

/-- A null callback is none at all. -/
def addNativeSocket (s : LinkManager N H C) (fd : Int) (callback : Option C) : Option (LinkManager N H C × Outcome) :=
  if (get s.nativeCbs fd).join.isSome then some (s, .thrown)
  else do
    let s := { s with nativeCbs := (s.nativeCbs.filter fun e : Int × Option C => e.1 ≠ fd) ++ [(fd, callback)], iSockets := s.iSockets + 1 }
    let s ← s.RenderPollItems
    some (s, .returned 0)

def removeNativeSocket (s : LinkManager N H C) (fd : Int) : Option (LinkManager N H C × Outcome) :=
  if (get s.nativeCbs fd).join.isNone then some (s, .thrown)
  else do
    let s := { s with nativeCbs := s.nativeCbs.filter fun e => e.1 ≠ fd, iSockets := s.iSockets - 1 }
    let s ← s.RenderPollItems
    some (s, .returned 0)

/-- A call; nothing if it aborts, writes behind an array or reads what was deleted. -/
def call (s : LinkManager N H C) : Ev N H C → Option (LinkManager N H C × Outcome)
  | .addRepSocket server callback zmq => s.addRepSocket monitorSockName server callback zmq
  | .addReqSocket outgoing callback zmq => s.addReqSocket monitorSockName outgoing callback zmq
  | .addNativeSocket fd callback => s.addNativeSocket fd callback
  | .removeNativeSocket fd => s.removeNativeSocket fd
  | .close sendId => (s.close monitorSockName sendId).map fun r => (r.1, .returned r.2)

def step (s : LinkManager N H C) (e : Ev N H C) : Option (LinkManager N H C) := (s.call monitorSockName e).map fst

end LinkManager

/-! ## What is registered -/

/-- A socket with its monitor. -/
structure Link (N H C : Type) where
  name : N
  socket : H
  monitor : H
  callback : C

def Link.entries (l : Link N H C) : List (PollItem H × Callback H C) :=
  [(⟨some l.socket, 0⟩, .given l.callback), (⟨some l.monitor, 0⟩, .monitorCb l.socket)]

/-- What was added and not closed or removed. -/
structure Registered (N H C : Type) where
  servers : List (Link N H C)
  outgoing : List (Link N H C)
  natives : List (Int × C)

def Registered.links (r : Registered N H C) (outgoing : Bool) : List (Link N H C) := bif outgoing then r.outgoing else r.servers

def Registered.setLinks (r : Registered N H C) (outgoing : Bool) (l : List (Link N H C)) : Registered N H C :=
  { r with servers := bif outgoing then r.servers else l, outgoing := bif outgoing then l else r.outgoing }

def Registered.native (e : Int × C) : PollItem H × Callback H C := (⟨none, e.1⟩, .given e.2)

/-- What is to be polled. -/
def Registered.entries (r : Registered N H C) : List (PollItem H × Callback H C) :=
  r.servers.flatMap Link.entries ++ r.outgoing.flatMap Link.entries ++ r.natives.map Registered.native

/-- The sockets of one kind after an add: one more, unless the name is taken or a call fails. -/
def added (links : List (Link N H C)) (name : N) (callback : Option C) (opened : Option H) (zmq : Zmq H) : List (Link N H C) :=
  if ∃ l ∈ links, l.name = name then links
  else
    match opened, zmq.pair, callback with
    | some socket, some monitor, some callback => links ++ [⟨name, socket, monitor, callback⟩]
    | _, _, _ => links

def next (r : Registered N H C) : Ev N H C → Registered N H C
  | .addRepSocket server callback zmq => r.setLinks false (added r.servers server callback (openRep zmq) zmq)
  | .addReqSocket outgoing callback zmq => r.setLinks true (added r.outgoing outgoing callback (openReq zmq) zmq)
  | .addNativeSocket fd callback =>
    if ∃ e : Int × C, e ∈ r.natives ∧ e.1 = fd then r else { r with natives := r.natives ++ (callback.map (fd, ·)).toList }
  | .removeNativeSocket fd => { r with natives := r.natives.filter fun e => e.1 ≠ fd }
  | .close sendId =>
    { r with servers := r.servers.filter fun l => l.socket ≠ sendId, outgoing := r.outgoing.filter fun l => l.socket ≠ sendId }

/-- The first `iSockets` entries of the two arrays, which are polled. -/
def LinkManager.polled (s : LinkManager N H C) : List (Option (PollItem H) × Option (Callback H C)) :=
  (s.pollItems.take s.iSockets).zip (s.pollToCallback.take s.iSockets)

/-- The counter, the arrays and the callbacks are right. -/
structure Polls (s : LinkManager N H C) (r : Registered N H C) : Prop where
  count : s.iSockets = s.written
  items : s.iSockets ≤ s.pollItems.length
  callbacks : s.iSockets ≤ s.pollToCallback.length
  entries : s.polled.Perm (r.entries.map fun e => (some e.1, some e.2))

/-- The sockets that are open: those of the tables, with their monitors. -/
def LinkManager.opened (s : LinkManager N H C) : List H :=
  (s.serverSockets ++ s.outgoing).flatMap fun e => e.2.socket :: e.2.monitor.toList

/-- `zmq_socket` returns the address of no socket that is open. -/
def Zmq.Fresh (zmq : Zmq H) (opened : List H) : Prop :=
  (∀ h ∈ zmq.socket, h ∉ opened) ∧ ∀ m ∈ zmq.pair, m ∉ opened ∧ zmq.socket ≠ some m

def Fresh (s : LinkManager N H C) : Ev N H C → Prop
  | .addRepSocket _ _ zmq | .addReqSocket _ _ zmq => zmq.Fresh s.opened
  | _ => True

/-- What is registered has a callback, and its monitor is made. -/
def AddOk (s : LinkManager N H C) (outgoing : Bool) (name : N) (callback : Option C) (opened : Option H) (zmq : Zmq H) : Prop :=
  get (s.table outgoing) name = none → ∀ _h ∈ opened, callback.isSome = true ∧ zmq.socketMonitor ≠ -1 ∧ zmq.pair.isSome = true

/-- No add fails at the monitor or has a null callback, and no handle of a monitor is closed whose socket was. -/
def Ok (monitorSockName : H → N) (s : LinkManager N H C) : Ev N H C → Prop
  | .addRepSocket server callback zmq => AddOk s false server callback (openRep zmq) zmq
  | .addReqSocket outgoing callback zmq => AddOk s true outgoing callback (openReq zmq) zmq
  | .addNativeSocket fd callback => (get s.nativeCbs fd).join = none → callback.isSome = true
  | .removeNativeSocket _ => True
  | .close sendId => ∀ p ∈ s.revSockMap sendId, (s.readName monitorSockName p).isSome = true

instance (s : LinkManager N H C) : DecidablePred (Fresh s)
  | .addRepSocket _ _ _ | .addReqSocket _ _ _ => inferInstanceAs (Decidable (_ ∧ _))
  | .addNativeSocket _ _ | .removeNativeSocket _ | .close _ => .isTrue trivial

instance (s : LinkManager N H C) (outgoing : Bool) (name : N) (callback : Option C) (opened : Option H) (zmq : Zmq H) :
    Decidable (AddOk s outgoing name callback opened zmq) :=
  have : Decidable (get (s.table outgoing) name = none) := decidable_of_iff _ Option.isNone_iff_eq_none
  inferInstanceAs (Decidable (_ → _))

instance (monitorSockName : H → N) (s : LinkManager N H C) : DecidablePred (Ok monitorSockName s)
  | .addRepSocket _ _ _ | .addReqSocket _ _ _ => inferInstanceAs (Decidable (AddOk ..))
  | .addNativeSocket fd _ =>
    have : Decidable ((get s.nativeCbs fd).join = none) := decidable_of_iff _ Option.isNone_iff_eq_none
    inferInstanceAs (Decidable (_ → _))
  | .removeNativeSocket _ => .isTrue trivial
  | .close _ => inferInstanceAs (Decidable (∀ _ ∈ _, _))

end

/-- ZMQ calls that all succeed. -/
def Zmq.good (socket pair : Nat) : Zmq Nat := ⟨some socket, 0, 0, 0, 0, 0, 0, 0, some pair⟩

/-- The monitor of the first socket cannot be made: the add throws, with the socket in its table and counted, and nothing written. -/
theorem half_registered : ¬ ∀ (es : List (Ev Nat Nat Nat)) (e : Ev Nat Nat Nat) (s s' : LinkManager Nat Nat Nat) (o : Outcome),
    exec (LinkManager.step id) .new es = some s → Fresh s e → s.call id e = some (s', o) →
    s'.iSockets = s'.written ∧ (o = .thrown → s'.serverSockets = s.serverSockets ∧ s'.iSockets = s.iSockets) := by
  intro h
  have hcall : ∃ s', (LinkManager.new : LinkManager Nat Nat Nat).call id (.addRepSocket 1 (some 5) { Zmq.good 7 8 with socketMonitor := -1 }) =
      some (s', .thrown) ∧ s'.iSockets = 1 := ⟨_, rfl, rfl⟩
  obtain ⟨s', hcall, hs⟩ := hcall
  have := (h [] _ _ s' _ rfl (by decide) hcall).2 rfl
  exact absurd (hs.symm.trans this.2) (by decide)

/-! ## Rendering -/

section Render

variable {N H C : Type}

/-- The first places of the arrays hold these entries. -/
structure Wrote (r : Rendering H C) (n : Nat) (pre : List (PollItem H × Callback H C)) : Prop where
  i : r.i = pre.length
  written : r.written = pre.length
  items : r.items.length = n
  callbacks : r.callbacks.length = n
  item : r.items.take r.i = pre.map fun e => some e.1
  callback : r.callbacks.take r.i = pre.map fun e => some e.2

theorem take_set_self {α : Type} {l : List α} {i : Nat} (hi : i < l.length) (a : α) : (l.set i a).take (i + 1) = l.take i ++ [a] := by
  rw [take_succ_eq_append_getElem (by rwa [length_set]), take_set_of_le (Nat.le_refl i), getElem_set_self]

variable {r : Rendering H C} {n : Nat} {pre : List (PollItem H × Callback H C)}

theorem Wrote.write (h : Wrote r n pre) (hn : pre.length < n) (e : PollItem H × Callback H C) :
    ∃ r', r.write e.1 e.2 = some r' ∧ Wrote r' n (pre ++ [e]) := by
  have hitems : r.i < r.items.length := by rwa [h.i, h.items]
  have hcallbacks : r.i < r.callbacks.length := by rwa [h.i, h.callbacks]
  refine ⟨_, if_pos ⟨hitems, hcallbacks⟩, ?_, ?_, ?_, ?_, ?_, ?_⟩
  · rw [length_append, length_singleton, h.i]
  · rw [length_append, length_singleton, h.written]
  · rw [length_set, h.items]
  · rw [length_set, h.callbacks]
  · rw [take_set_self hitems, h.item, map_append]
    rfl
  · rw [take_set_self hcallbacks, h.callback, map_append]
    rfl

theorem Wrote.socket (h : Wrote r n pre) {callbacks : H → Option (Callback H C)} {info : SocketInfo H} {l : Link N H C}
    (hn : pre.length + 2 ≤ n) (hcallback : callbacks l.socket = some (.given l.callback)) (hsocket : info.socket = l.socket)
    (hmonitor : info.monitor = some l.monitor) : ∃ r', r.socket callbacks info = some r' ∧ Wrote r' n (pre ++ l.entries) := by
  obtain ⟨r1, hr1, h1⟩ := h.write (by omega) (⟨some l.socket, 0⟩, .given l.callback)
  obtain ⟨r2, hr2, h2⟩ := h1.write (by rw [length_append, length_singleton]; omega) (⟨some l.monitor, 0⟩, .monitorCb l.socket)
  refine ⟨r2, ?_, by rwa [append_assoc] at h2⟩
  rw [Rendering.socket, hsocket, hmonitor, hcallback, bind_eq_bind, bind_some, hr1]
  exact hr2

/-- A row of a table, without where its info is. -/
def row (e : N × SocketInfo H) : N × H × Option H := (e.1, e.2.socket, e.2.monitor)

def Link.row (l : Link N H C) : N × H × Option H := (l.name, l.socket, some l.monitor)

theorem length_entries (ls : List (Link N H C)) : (ls.flatMap Link.entries).length = 2 * ls.length := by
  induction ls with
  | nil => rfl
  | cons l ls ih =>
    rw [flatMap_cons, length_append, ih, length_cons]
    show 2 + _ = _
    omega

theorem Wrote.table (h : Wrote r n pre) {callbacks : H → Option (Callback H C)} {t : List (N × SocketInfo H)} {ls : List (Link N H C)}
    (ht : t.map row = ls.map Link.row) (hcallbacks : ∀ l ∈ ls, callbacks l.socket = some (.given l.callback))
    (hn : pre.length + 2 * ls.length ≤ n) :
    ∃ r', t.foldlM (fun r e => r.socket callbacks e.2) r = some r' ∧ Wrote r' n (pre ++ ls.flatMap Link.entries) := by
  induction ls generalizing t r pre with
  | nil =>
    obtain rfl := map_eq_nil_iff.mp ht
    exact ⟨r, rfl, by rwa [flatMap_nil, append_nil]⟩
  | cons l ls ih =>
    obtain ⟨e, t, rfl, he, ht⟩ := map_eq_cons_iff.mp ht
    rw [length_cons] at hn
    obtain ⟨-, hsocket, hmonitor⟩ := by simpa [row, Link.row] using he
    obtain ⟨r1, hr1, h1⟩ := h.socket (by omega) (hcallbacks l mem_cons_self) hsocket hmonitor
    have hlen : (pre ++ l.entries).length = pre.length + 2 := length_append
    obtain ⟨r2, hr2, h2⟩ := ih h1 ht (forall_mem_cons.mp hcallbacks).2 (by omega)
    refine ⟨r2, ?_, by rwa [append_assoc] at h2⟩
    rw [foldlM_cons, hr1]
    exact hr2

theorem Wrote.natives (h : Wrote r n pre) {l : List (Int × C)} (hn : pre.length + l.length ≤ n) :
    ∃ r', (l.map fun e => (e.1, some e.2)).foldlM (fun r e => r.native e.1 e.2) r = some r' ∧ Wrote r' n (pre ++ l.map Registered.native) := by
  induction l generalizing r pre with
  | nil => exact ⟨r, rfl, by rwa [map_nil, append_nil]⟩
  | cons e l ih =>
    rw [length_cons] at hn
    obtain ⟨r1, hr1, h1⟩ := h.write (by omega) (Registered.native e)
    obtain ⟨r2, hr2, h2⟩ := ih h1 (by rw [length_append, length_singleton]; omega)
    refine ⟨r2, ?_, by rwa [append_assoc] at h2⟩
    have hnative : Rendering.native r e.1 (some e.2) = some r1 := hr1
    rw [map_cons, foldlM_cons, hnative]
    exact hr2

/-- The tables have what is registered, and the callbacks. -/
structure Rows (s : LinkManager N H C) (r : Registered N H C) : Prop where
  tables : ∀ b, (s.table b).map row = (r.links b).map Link.row
  natives : s.nativeCbs = r.natives.map fun e => (e.1, some e.2)
  callbacks : ∀ b, ∀ l ∈ r.links b, s.callbacks l.socket = some (.given l.callback)

/-- The arrays show what is registered. -/
structure Shown (s : LinkManager N H C) (r : Registered N H C) : Prop where
  count : s.iSockets = r.entries.length
  written : s.written = r.entries.length
  room : r.entries.length ≤ s.iSocketsGrowth
  items : s.pollItems.length = s.iSocketsGrowth
  toCallback : s.pollToCallback.length = s.iSocketsGrowth
  polled : s.polled = r.entries.map fun e => (some e.1, some e.2)

theorem entries_length (r : Registered N H C) : r.entries.length = 2 * (r.servers.length + r.outgoing.length) + r.natives.length := by
  rw [Registered.entries, length_append, length_append, length_entries, length_entries, length_map]
  omega

/-- `RenderPollItems` shows what the tables have, if the counter counts it and exceeds the arrays by no more than they grow. -/
theorem RenderPollItems_spec {s : LinkManager N H C} {r : Registered N H C} (h : Rows s r) (hcount : s.iSockets = r.entries.length)
    (hroom : s.iSockets ≤ s.iSocketsGrowth + 10) (hitems : s.pollItems.length = s.iSocketsGrowth)
    (hcallbacks : s.pollToCallback.length = s.iSocketsGrowth) :
    ∃ growth items callbacks written, s.RenderPollItems = some { s with
        iSocketsGrowth := growth, pollItems := items, pollToCallback := callbacks, written := written } ∧
      Shown { s with iSocketsGrowth := growth, pollItems := items, pollToCallback := callbacks, written := written } r := by
  have hgrow : ∃ growth items callbacks, s.grow = { s with iSocketsGrowth := growth, pollItems := items, pollToCallback := callbacks } ∧
      items.length = growth ∧ callbacks.length = growth ∧ s.iSockets ≤ growth := by
    rw [LinkManager.grow]
    split_ifs with hlt
    · exact ⟨_, _, _, rfl, length_replicate, length_replicate, hroom⟩
    · exact ⟨_, _, _, rfl, hitems, hcallbacks, Nat.le_of_not_lt hlt⟩
  obtain ⟨growth, items, callbacks, hgrow, hi, hc, hle⟩ := hgrow
  have hlen := entries_length r
  have hstart : Wrote ⟨0, items, callbacks, 0⟩ growth [] := ⟨rfl, rfl, hi, hc, rfl, rfl⟩
  obtain ⟨r1, hr1, h1⟩ := hstart.table (h.tables false) (h.callbacks false) (by show 0 + 2 * r.servers.length ≤ _; omega)
  have hlen1 : ([] ++ (r.links false).flatMap Link.entries).length = 2 * r.servers.length := length_entries r.servers
  obtain ⟨r2, hr2, h2⟩ := h1.table (h.tables true) (h.callbacks true) (by rw [hlen1]; show _ + 2 * r.outgoing.length ≤ _; omega)
  have hlen2 : ([] ++ (r.links false).flatMap Link.entries ++ (r.links true).flatMap Link.entries).length =
      2 * r.servers.length + 2 * r.outgoing.length := by
    rw [length_append, hlen1]
    exact congrArg (2 * r.servers.length + ·) (length_entries r.outgoing)
  obtain ⟨r3, hr3, h3⟩ := h2.natives (l := r.natives) (by rw [hlen2]; omega)
  have hi3 : r3.i = s.iSockets := h3.i.trans hcount.symm
  refine ⟨growth, r3.items, r3.callbacks, r3.written, ?_, hcount, h3.written, ?_, h3.items, h3.callbacks, ?_⟩
  · have hr1' : s.serverSockets.foldlM (fun r e => r.socket s.callbacks e.2) ⟨0, items, callbacks, 0⟩ = some r1 := hr1
    have hr2' : s.outgoing.foldlM (fun r e => r.socket s.callbacks e.2) r1 = some r2 := hr2
    rw [← h.natives] at hr3
    simp only [LinkManager.RenderPollItems, hgrow, hr1', hr2', hr3, bind_eq_bind, bind_some]
  · rw [← hcount]
    exact hle
  · show (r3.items.take s.iSockets).zip (r3.callbacks.take s.iSockets) = _
    rw [← hi3, h3.item, h3.callback, List.zip_map']
    rfl

end Render

/-! ## Calls -/

section Calls

variable {N H C : Type}

theorem length_filter_ne {α β : Type} [DecidableEq β] {f : α → β} {l : List α} (hl : (l.map f).Nodup) {a : α} (ha : a ∈ l) :
    (l.filter fun b => f b ≠ f a).length + 1 = l.length := by
  have hmap : (l.filter fun b => f b ≠ f a).map f = (l.map f).erase (f a) := by
    rw [hl.erase_eq_filter, filter_map]
    exact congrArg _ (filter_congr fun b _ => by by_cases hb : f b = f a <;> simp [hb])
  have hlen := congrArg List.length hmap
  rw [length_map, length_erase_of_mem (mem_map_of_mem ha), length_map] at hlen
  have := length_pos_of_mem ha
  omega

structure Inv (s : LinkManager N H C) (r : Registered N H C) : Prop extends Rows s r, Shown s r where
  rev : ∀ b, ∀ l ∈ r.links b, s.revSockMap l.socket = some (.own l.name)
  names : ∀ b, ((r.links b).map Link.name).Nodup
  sockets : ∀ {b b' l l'}, l ∈ r.links b → l' ∈ r.links b' → l.socket = l'.socket → b = b' ∧ l = l'
  monitors : ∀ {b b' l l'}, l ∈ r.links b → l' ∈ r.links b' → l.socket ≠ l'.monitor
  addresses : ∀ b, ∀ e ∈ s.table b, e.2.address < s.allocated
  fds : (r.natives.map fst).Nodup

theorem links_setLinks (r : Registered N H C) (b b' : Bool) (l : List (Link N H C)) :
    (r.setLinks b l).links b' = if b' = b then l else r.links b' := by
  cases b <;> cases b' <;> rfl

theorem table_setTable (s : LinkManager N H C) (b b' : Bool) (l : List (N × SocketInfo H)) :
    (s.setTable b l).table b' = if b' = b then l else s.table b' := by
  cases b <;> cases b' <;> rfl

theorem setLinks_self (r : Registered N H C) (b : Bool) : r.setLinks b (r.links b) = r := by
  cases b <;> rfl

theorem setMonitor_table (s : LinkManager N H C) (info : Nat) (monitor : H) (b : Bool) :
    (s.setMonitor info monitor).table b = (s.table b).map (withMonitor info monitor) := by
  cases b <;> rfl

variable {b : Bool}

theorem mem_opened {s : LinkManager N H C} {e : N × SocketInfo H} (he : e ∈ s.table b) {x : H}
    (hx : x ∈ e.2.socket :: e.2.monitor.toList) : x ∈ s.opened := by
  refine mem_flatMap.mpr ⟨e, ?_, hx⟩
  cases b with
  | true => exact mem_append_right _ he
  | false => exact mem_append_left _ he

variable {s : LinkManager N H C} {r : Registered N H C}

variable {l : Link N H C}

theorem Rows.opened (h : Rows s r) (hl : l ∈ r.links b) : l.socket ∈ s.opened ∧ l.monitor ∈ s.opened := by
  have hrow : l.row ∈ (s.table b).map row := by
    rw [h.tables]
    exact mem_map_of_mem hl
  obtain ⟨e, he, heq⟩ := mem_map.mp hrow
  obtain ⟨-, hsocket, hmonitor⟩ : e.1 = l.name ∧ e.2.socket = l.socket ∧ e.2.monitor = some l.monitor := by simpa [row, Link.row] using heq
  refine ⟨mem_opened he ?_, mem_opened he ?_⟩
  · rw [hsocket]
    exact mem_cons_self
  · rw [hmonitor]
    exact mem_cons_of_mem _ (mem_singleton.mpr rfl)

/-- `RenderPollItems` for tables that have what is registered, with a reverse table. -/
theorem render_inv {s1 : LinkManager N H C} {r' : Registered N H C} (hrows : Rows s1 r') (hcount : s1.iSockets = r'.entries.length)
    (hroom : s1.iSockets ≤ s1.iSocketsGrowth + 10) (hitems : s1.pollItems.length = s1.iSocketsGrowth)
    (hcallbacks : s1.pollToCallback.length = s1.iSocketsGrowth) {rev : H → Option (SockName N)}
    (hrev : ∀ b, ∀ l ∈ r'.links b, rev l.socket = some (.own l.name)) (hnames : ∀ b, ((r'.links b).map Link.name).Nodup)
    (hsockets : ∀ {b b' l l'}, l ∈ r'.links b → l' ∈ r'.links b' → l.socket = l'.socket → b = b' ∧ l = l')
    (hmonitors : ∀ {b b' l l'}, l ∈ r'.links b → l' ∈ r'.links b' → l.socket ≠ l'.monitor)
    (haddresses : ∀ b, ∀ e ∈ s1.table b, e.2.address < s1.allocated) (hfds : (r'.natives.map fst).Nodup) :
    ∃ s', s1.RenderPollItems = some s' ∧ s'.revSockMap = s1.revSockMap ∧ Inv { s' with revSockMap := rev } r' := by
  obtain ⟨growth, items, callbacks, written, hrender, hshown⟩ := RenderPollItems_spec hrows hcount hroom hitems hcallbacks
  exact ⟨_, hrender, rfl, ⟨⟨hrows.tables, hrows.natives, hrows.callbacks⟩,
    ⟨hshown.count, hshown.written, hshown.room, hshown.items, hshown.toCallback, hshown.polled⟩, hrev, hnames, hsockets, hmonitors, haddresses, hfds⟩⟩

theorem Rows.get_native (h : Rows s r) (fd : Int) : (LinkManagers.get s.nativeCbs fd).join = (LinkManagers.get r.natives fd) := by
  rw [h.natives, LinkManagers.get, LinkManagers.get, List.find?_map, Option.map_map]
  show (Option.map _ (r.natives.find? fun e => e.1 = fd)).join = _
  cases r.natives.find? fun e => e.1 = fd <;> rfl

theorem get_eq_none {K V : Type} [DecidableEq K] {l : List (K × V)} {key : K} : get l key = none ↔ ¬ ∃ e : K × V, e ∈ l ∧ e.1 = key := by
  rw [get, map_eq_none_iff, List.find?_eq_none, not_exists]
  exact forall_congr' fun e => by rw [decide_eq_true_iff, not_and]

/-- The native descriptors change, and the counter with them. -/
theorem native_spec (h : Inv s r) {natives : List (Int × C)} {n : Nat} (hn : n + r.natives.length = s.iSockets + natives.length)
    (hroom : natives.length ≤ r.natives.length + 1) (hfds : (natives.map fst).Nodup) :
    ∃ s', { s with nativeCbs := natives.map fun e : Int × C => (e.1, some e.2), iSockets := n }.RenderPollItems = some s' ∧
      Inv s' { r with natives := natives } := by
  have hlen : r.entries.length = 2 * (r.servers.length + r.outgoing.length) + r.natives.length := entries_length r
  have hlen' : ({ r with natives := natives } : Registered N H C).entries.length = 2 * (r.servers.length + r.outgoing.length) + natives.length :=
    entries_length _
  have hcount := h.count
  have hfits := h.room
  obtain ⟨s', hrender, hrest, hinv⟩ := @render_inv N H C { s with nativeCbs := natives.map fun e : Int × C => (e.1, some e.2), iSockets := n }
    { r with natives := natives } ⟨h.tables, rfl, h.callbacks⟩ (by rw [hlen']; show n = _; omega) (by show n ≤ s.iSocketsGrowth + 10; omega)
    h.items h.toCallback _ h.rev h.names h.sockets h.monitors h.addresses hfds
  refine ⟨s', hrender, ?_⟩
  have hrev : s.revSockMap = s'.revSockMap := hrest.symm
  rw [hrev] at hinv
  exact hinv

variable [DecidableEq N]

/-- What a table has under a name is the socket that is registered under it. -/
theorem Rows.get (h : Rows s r) (b : Bool) (name : N) :
    (LinkManagers.get (s.table b) name).map (fun info => (info.socket, info.monitor)) =
      ((r.links b).find? fun l => l.name = name).map fun l => (l.socket, some l.monitor) := by
  have hfind : ((s.table b).map row).find? (fun x => x.1 = name) = ((r.links b).map Link.row).find? fun x => x.1 = name :=
    congrArg _ (h.tables b)
  rw [List.find?_map, List.find?_map] at hfind
  have hmap := congrArg (Option.map snd) hfind
  rw [Option.map_map, Option.map_map] at hmap
  rw [LinkManagers.get, Option.map_map]
  exact hmap

theorem Rows.get_none (h : Rows s r) (b : Bool) (name : N) :
    LinkManagers.get (s.table b) name = none ↔ ¬ ∃ l ∈ r.links b, l.name = name := by
  rw [← map_eq_none_iff (f := fun info => (info.socket, info.monitor)), h.get, map_eq_none_iff, List.find?_eq_none]
  simp

theorem Inv.get_link (h : Inv s r) (hl : l ∈ r.links b) :
    ∃ info, get (s.table b) l.name = some info ∧ info.socket = l.socket ∧ info.monitor = some l.monitor := by
  obtain ⟨l', hl'⟩ : ∃ l', (r.links b).find? (fun k : Link N H C => k.name = l.name) = some l' :=
    isSome_iff_exists.mp (List.find?_isSome.mpr ⟨l, hl, by simp⟩)
  have hname := of_decide_eq_true (@List.find?_some _ (fun k : Link N H C => decide (k.name = l.name)) _ _ hl')
  obtain rfl := inj_on_of_nodup_map (h.names b) (mem_of_find?_eq_some hl') hl hname
  have hget := h.toRows.get b l'.name
  rw [hl', map_some, Option.map_eq_some_iff] at hget
  obtain ⟨info, hinfo, heq⟩ := hget
  exact ⟨info, hinfo, mk.inj heq⟩

variable {name : N}

theorem Rows.link_of_get (h : Rows s r) {info : SocketInfo H} (hinfo : LinkManagers.get (s.table b) name = some info) :
    ∃ l ∈ r.links b, l.name = name ∧ info.socket = l.socket ∧ info.monitor = some l.monitor := by
  have hget := h.get b name
  rw [hinfo, map_some] at hget
  obtain ⟨l, hl, heq⟩ := Option.map_eq_some_iff.mp hget.symm
  have hname := of_decide_eq_true (@List.find?_some _ (fun k : Link N H C => decide (k.name = name)) _ _ hl)
  exact ⟨l, mem_of_find?_eq_some hl, hname, (mk.inj heq).1.symm, (mk.inj heq).2.symm⟩

variable [DecidableEq H]

theorem links_close (r : Registered N H C) (sendId : H) (b : Bool) :
    (next r (.close sendId)).links b = (r.links b).filter fun l => l.socket ≠ sendId := by
  cases b <;> rfl

/-- The name and the handle of a socket tell it from the others. -/
theorem Inv.filter_socket (h : Inv s r) (hl : l ∈ r.links b) :
    ((r.links b).filter fun k => k.socket ≠ l.socket) = (r.links b).filter fun k => k.name ≠ l.name :=
  filter_congr fun k hk => decide_eq_decide.mpr <| not_congr
    ⟨fun heq => by rw [(h.sockets hk hl heq).2], fun heq => by rw [inj_on_of_nodup_map (h.names b) hk hl heq]⟩

theorem Inv.filter_name (h : Inv s r) (hl : l ∈ r.links b) :
    ((s.table b).filter fun e => e.1 ≠ l.name).map row = ((r.links b).filter fun k => k.socket ≠ l.socket).map Link.row := by
  have hfilter : ((s.table b).map row).filter (fun x => x.1 ≠ l.name) = ((r.links b).map Link.row).filter fun x => x.1 ≠ l.name :=
    congrArg _ (h.tables b)
  rw [filter_map, filter_map] at hfilter
  rw [h.filter_socket hl]
  exact hfilter

omit [DecidableEq N] in
theorem Inv.filter_other (h : Inv s r) {b' : Bool} (hl : l ∈ r.links b) (hb : b' ≠ b) :
    ((r.links b').filter fun k => k.socket ≠ l.socket) = r.links b' :=
  filter_eq_self.mpr fun _ hk => decide_eq_true fun heq => hb (h.sockets hk hl heq).1

theorem Inv.filter_length (h : Inv s r) (hl : l ∈ r.links b) :
    ((r.links b).filter fun k => k.socket ≠ l.socket).length + 1 = (r.links b).length := by
  rw [h.filter_socket hl]
  exact length_filter_ne (h.names b) hl

theorem closeInfo_spec (h : Inv s r) (hl : l ∈ r.links b) {info : SocketInfo H} (hsocket : info.socket = l.socket)
    (hmonitor : info.monitor = some l.monitor) : ∃ s', (s.setTable b ((s.table b).filter fun e => e.1 ≠ l.name)).closeInfo info = some (s', 0) ∧
      Inv s' (next r (.close l.socket)) := by
  have hmem {b' : Bool} {k : Link N H C} (hk : k ∈ (next r (.close l.socket)).links b') : k ∈ r.links b' ∧ k.socket ≠ l.socket := by
    rw [links_close] at hk
    exact ⟨mem_of_mem_filter hk, of_decide_eq_true (mem_filter.mp hk).2⟩
  have hcount : (next r (.close l.socket)).entries.length + 2 = r.entries.length := by
    rw [entries_length, entries_length]
    have hlen := h.filter_length hl
    show 2 * (((r.links false).filter fun k => k.socket ≠ l.socket).length + ((r.links true).filter fun k => k.socket ≠ l.socket).length) +
      r.natives.length + 2 = 2 * ((r.links false).length + (r.links true).length) + r.natives.length
    cases b with
    | true =>
      have hother := congrArg List.length (h.filter_other hl (show false ≠ true from nofun))
      omega
    | false =>
      have hother := congrArg List.length (h.filter_other hl (show true ≠ false from nofun))
      omega
  have htable (b' : Bool) : (s.setTable b ((s.table b).filter fun e => e.1 ≠ l.name)).table b' ⊆ s.table b' ∧
      ((s.setTable b ((s.table b).filter fun e => e.1 ≠ l.name)).table b').map row = ((next r (.close l.socket)).links b').map Link.row := by
    rw [table_setTable, links_close]
    split_ifs with hb
    · subst hb
      exact ⟨filter_subset_self _, h.filter_name hl⟩
    · exact ⟨List.Subset.refl _, by rw [h.filter_other hl hb, h.tables]⟩
  let s1 : LinkManager N H C := { s.setTable b ((s.table b).filter fun e => e.1 ≠ l.name) with
    callbacks := update (update s.callbacks l.socket none) l.monitor none
    iSockets := s.iSockets - 1 - 1 }
  have hrows : Rows s1 (next r (.close l.socket)) := by
    refine ⟨fun b' => (htable b').2, h.natives, fun b' k hk => ?_⟩
    obtain ⟨hk, hne⟩ := hmem hk
    show update (update s.callbacks l.socket none) l.monitor none k.socket = _
    rw [update_of_ne (h.monitors hk hl), update_of_ne hne, h.callbacks b' k hk]
  have hle : s1.iSockets ≤ s1.iSocketsGrowth := Nat.le_trans (by show s.iSockets - 1 - 1 ≤ r.entries.length; rw [h.count]; omega) h.room
  have hrev (b' : Bool) (k : Link N H C) (hk : k ∈ (next r (.close l.socket)).links b') :
      update s.revSockMap l.socket none k.socket = some (.own k.name) :=
    (update_of_ne (hmem hk).2 _ _).trans (h.rev b' k (hmem hk).1)
  have hnames (b' : Bool) : (((next r (.close l.socket)).links b').map Link.name).Nodup := by
    rw [links_close]
    exact (h.names b').sublist (filter_sublist.map _)
  obtain ⟨s', hrender, hrest, hinv⟩ := render_inv hrows (by show s.iSockets - 1 - 1 = _; rw [h.count]; omega) (by omega) h.items h.toCallback hrev
    hnames (fun hk hk' => h.sockets (hmem hk).1 (hmem hk').1) (fun hk hk' => h.monitors (hmem hk).1 (hmem hk').1)
    (fun b' e he => h.addresses b' e ((htable b').1 he)) h.fds
  refine ⟨_, ?_, hinv⟩
  have hbind : (s1.RenderPollItems.bind fun s2 => some ({ s2 with revSockMap := update s2.revSockMap l.socket none }, 0)) =
      some ({ s' with revSockMap := update s.revSockMap l.socket none }, 0) := by
    rw [hrender, bind_some, hrest]
    rfl
  simp only [LinkManager.closeInfo, hsocket, hmonitor]
  exact hbind

variable {monitorSockName : H → N}

theorem Inv.close_other (h : Inv s r) {sendId : H} (hno : ∀ b, ∀ l ∈ r.links b, l.socket ≠ sendId) : Inv s (next r (.close sendId)) := by
  have hsame (b : Bool) : ((r.links b).filter fun l => l.socket ≠ sendId) = r.links b :=
    filter_eq_self.mpr fun l hl => decide_eq_true (hno b l hl)
  have hnext : next r (.close sendId) = r := congrArg₂ (fun a b => Registered.mk a b r.natives) (hsame false) (hsame true)
  rw [hnext]
  exact h

theorem close_spec (h : Inv s r) {sendId : H} (hok : Ok monitorSockName s (.close sendId)) :
    ∃ s' status, s.close monitorSockName sendId = some (s', status) ∧ Inv s' (next r (.close sendId)) := by
  rw [LinkManager.close]
  cases hp : s.revSockMap sendId with
  | none =>
    refine ⟨s, 1, rfl, h.close_other fun b l hl heq => ?_⟩
    have := h.rev b l hl
    rw [heq, hp] at this
    cases this
  | some p =>
    obtain ⟨name, hname⟩ := isSome_iff_exists.mp (hok p hp)
    simp only [hname, bind_eq_bind, bind_some]
    cases hserver : (get s.serverSockets name).filter fun info => info.socket = sendId with
    | some info =>
      obtain ⟨hget, hinfo⟩ := Option.filter_eq_some_iff.mp hserver
      obtain ⟨l, hl, rfl, hsocket, hmonitor⟩ := h.toRows.link_of_get (b := false) hget
      obtain rfl := hsocket.symm.trans (of_decide_eq_true hinfo)
      obtain ⟨s', hclose, hinv⟩ := closeInfo_spec h hl hsocket hmonitor
      exact ⟨s', 0, hclose, hinv⟩
    | none =>
      cases houtgoing : (get s.outgoing name).filter fun info => info.socket = sendId with
      | some info =>
        obtain ⟨hget, hinfo⟩ := Option.filter_eq_some_iff.mp houtgoing
        obtain ⟨l, hl, rfl, hsocket, hmonitor⟩ := h.toRows.link_of_get (b := true) hget
        obtain rfl := hsocket.symm.trans (of_decide_eq_true hinfo)
        obtain ⟨s', hclose, hinv⟩ := closeInfo_spec h hl hsocket hmonitor
        exact ⟨s', 0, hclose, hinv⟩
      | none =>
        refine ⟨s, 1, rfl, h.close_other fun b l hl heq => ?_⟩
        -- a socket's handle leads to its name, and the name to the socket
        have hrev := h.rev b l hl
        rw [heq, hp] at hrev
        obtain rfl := Option.some.inj hrev
        obtain rfl := Option.some.inj hname
        obtain ⟨info, hget, hsocket, -⟩ := h.get_link hl
        have hkeep : (get (s.table b) l.name).filter (fun info => info.socket = sendId) = some info :=
          Option.filter_eq_some_iff.mpr ⟨hget, decide_eq_true (hsocket.trans heq)⟩
        cases b with
        | true => exact absurd (houtgoing.symm.trans hkeep) nofun
        | false => exact absurd (hserver.symm.trans hkeep) nofun

theorem register_spec (h : Inv s r) (hname : ¬ ∃ l ∈ r.links b, l.name = name) {socket monitor : H} {zmq : Zmq H}
    (hpair : zmq.pair = some monitor) (hmade : zmq.socketMonitor ≠ -1) (hsocket : socket ∉ s.opened) (hmonitor : monitor ∉ s.opened)
    (hne : socket ≠ monitor) (callback : C) : ∃ s', s.register monitorSockName b name (some callback) socket zmq = some (s', .returned 0) ∧
      Inv s' (r.setLinks b (r.links b ++ [⟨name, socket, monitor, callback⟩])) := by
  let l : Link N H C := ⟨name, socket, monitor, callback⟩
  have hmem {b' : Bool} {k : Link N H C} (hk : k ∈ (r.setLinks b (r.links b ++ [l])).links b') : k ∈ r.links b' ∨ b' = b ∧ k = l := by
    rw [links_setLinks] at hk
    split_ifs at hk with hb
    · rw [hb]
      exact (mem_append.mp hk).imp id fun hk => ⟨rfl, mem_singleton.mp hk⟩
    · exact .inl hk
  have hold {b' : Bool} {k : Link N H C} (hk : k ∈ r.links b') : k.socket ≠ socket ∧ k.socket ≠ monitor ∧ k.monitor ≠ socket := by
    obtain ⟨hs, hm⟩ := h.toRows.opened hk
    exact ⟨fun heq => hsocket (heq ▸ hs), fun heq => hmonitor (heq ▸ hs), fun heq => hsocket (heq ▸ hm)⟩
  let s1 : LinkManager N H C := { (s.setTable b (s.table b ++ [(name, ⟨socket, none, s.allocated⟩)])).setMonitor s.allocated monitor with
    allocated := s.allocated + 1
    callbacks := update (update s.callbacks socket (some (.given callback))) monitor (some (.monitorCb socket))
    iSockets := s.iSockets + 1 + 1 }
  have htable (b' : Bool) : s1.table b' = if b' = b then s.table b ++ [(name, ⟨socket, some monitor, s.allocated⟩)] else s.table b' := by
    have hkeep (b' : Bool) : (s.table b').map (withMonitor s.allocated monitor) = s.table b' :=
      (map_congr_left fun e he => if_neg (Nat.ne_of_lt (h.addresses b' e he))).trans (List.map_id' _)
    show ((s.setTable b _).setMonitor s.allocated monitor).table b' = _
    rw [setMonitor_table, table_setTable]
    split_ifs
    · rw [map_append, hkeep, map_singleton, withMonitor, if_pos rfl]
    · exact hkeep b'
  have hrows : Rows s1 (r.setLinks b (r.links b ++ [l])) := by
    refine ⟨fun b' => ?_, h.natives, fun b' k hk => ?_⟩
    · rw [htable, links_setLinks]
      split_ifs
      · rw [map_append, map_append, h.tables]
        rfl
      · exact h.tables b'
    · show update (update s.callbacks socket _) monitor _ k.socket = _
      rcases hmem hk with hk | ⟨-, rfl⟩
      · rw [update_of_ne (hold hk).2.1, update_of_ne (hold hk).1, h.callbacks b' k hk]
      · rw [update_of_ne hne, update_self]
  have hcount : (r.setLinks b (r.links b ++ [l])).entries.length = r.entries.length + 2 := by
    rw [entries_length, entries_length]
    cases b <;> simp only [Registered.setLinks, Registered.links, cond_true, cond_false, length_append, length_singleton] <;> omega
  have hrev (b' : Bool) (k : Link N H C) (hk : k ∈ (r.setLinks b (r.links b ++ [l])).links b') :
      update (update s.revSockMap monitor (some (.monitorSockName s.allocated))) socket (some (.own name)) k.socket = some (.own k.name) := by
    rcases hmem hk with hk | ⟨-, rfl⟩
    · rw [update_of_ne (hold hk).1, update_of_ne (hold hk).2.1, h.rev b' k hk]
    · rw [update_self]
  have hnames (b' : Bool) : (((r.setLinks b (r.links b ++ [l])).links b').map Link.name).Nodup := by
    rw [links_setLinks]
    split_ifs
    · rw [map_append, map_singleton]
      refine List.Nodup.append (h.names b) (nodup_singleton _) (disjoint_singleton.mpr fun hmem => hname ?_)
      exact mem_map.mp hmem
    · exact h.names b'
  obtain ⟨s', hrender, hrest, hinv⟩ := render_inv hrows (by show s.iSockets + 1 + 1 = _; rw [hcount, h.count])
    (by show s.iSockets + 1 + 1 ≤ s.iSocketsGrowth + 10; rw [h.count]; have := h.room; omega) h.items h.toCallback hrev hnames
    (fun {b1 b2 k k'} hk hk' heq => by
      rcases hmem hk with hin | ⟨rfl, rfl⟩ <;> rcases hmem hk' with hin' | ⟨rfl, rfl⟩
      · exact h.sockets hin hin' heq
      · exact absurd heq (hold hin).1
      · exact absurd heq.symm (hold hin').1
      · exact ⟨rfl, rfl⟩)
    (fun {b1 b2 k k'} hk hk' heq => by
      rcases hmem hk with hin | ⟨rfl, rfl⟩ <;> rcases hmem hk' with hin' | ⟨rfl, rfl⟩
      · exact h.monitors hin hin' heq
      · exact (hold hin).2.1 heq
      · exact (hold hin').2.2 heq.symm
      · exact hne heq)
    (fun b' e he => by
      rw [htable] at he
      split_ifs at he with hb
      · rcases mem_append.mp he with he | he
        · exact Nat.lt_succ_of_lt (h.addresses b e he)
        · rw [mem_singleton.mp he]
          exact Nat.lt_succ_self _
      · exact Nat.lt_succ_of_lt (h.addresses b' e he)) h.fds
  refine ⟨_, ?_, hinv⟩
  have hbind : ((s1.RenderPollItems.bind fun s2 => some ({ s2 with
        revSockMap := update s2.revSockMap monitor (some (.monitorSockName s.allocated)) }, 0)).bind fun x : LinkManager N H C × Nat =>
      if x.2 ≠ 0 then (x.1.close monitorSockName socket).bind fun y => some (y.1, .thrown)
      else some ({ x.1 with revSockMap := update x.1.revSockMap socket (some (.own name)) }, Outcome.returned 0)) =
      some ({ s' with revSockMap := update (update s.revSockMap monitor (some (.monitorSockName s.allocated))) socket (some (.own name)) },
        .returned 0) := by
    rw [hrender, bind_some, bind_some, if_neg (fun hz => hz rfl), hrest]
    rfl
  rw [LinkManager.register, LinkManager.monitorSocketState, if_neg hmade, hpair]
  exact hbind

theorem addSocket_spec (h : Inv s r) {callback : Option C} {opened : Option H} {zmq : Zmq H}
    (hopened : ∀ x ∈ opened, zmq.socket = some x) (hfresh : zmq.Fresh s.opened) (hok : AddOk s b name callback opened zmq) :
    ∃ s' o, s.addSocket monitorSockName b name callback opened zmq = some (s', o) ∧
      Inv s' (r.setLinks b (added (r.links b) name callback opened zmq)) ∧ (o = .thrown → s' = s) := by
  have hself : Inv s (r.setLinks b (r.links b)) := by rwa [setLinks_self]
  unfold LinkManager.addSocket added
  cases hget : get (s.table b) name with
  | some info =>
    have hname : ∃ l ∈ r.links b, l.name = name := not_not.mp fun hno => by
      rw [(h.toRows.get_none b name).mpr hno] at hget
      cases hget
    rw [if_pos Option.isSome_some, if_pos hname]
    exact ⟨s, .thrown, rfl, hself, fun _ => rfl⟩
  | none =>
    have hname := (h.toRows.get_none b name).mp hget
    rw [Option.isSome_none, if_neg Bool.false_ne_true, if_neg hname]
    cases opened with
    | none => exact ⟨s, .thrown, rfl, hself, fun _ => rfl⟩
    | some socket =>
      obtain ⟨hcallback, hmade, hpair⟩ := hok hget socket rfl
      obtain ⟨callback, rfl⟩ := isSome_iff_exists.mp hcallback
      obtain ⟨monitor, hpair⟩ := isSome_iff_exists.mp hpair
      have hsocket := hopened socket rfl
      obtain ⟨hmonitor, hne⟩ := hfresh.2 monitor hpair
      obtain ⟨s', hregister, hinv⟩ := register_spec h hname hpair hmade (hfresh.1 socket hsocket) hmonitor
        (fun heq => hne (hsocket.trans (congrArg some heq))) callback
      rw [hpair]
      exact ⟨s', .returned 0, hregister, hinv, nofun⟩

theorem addNative_spec (h : Inv s r) {fd : Int} {callback : Option C} (hok : Ok monitorSockName s (.addNativeSocket fd callback)) :
    ∃ s' o, s.addNativeSocket fd callback = some (s', o) ∧ Inv s' (next r (.addNativeSocket fd callback)) ∧ (o = .thrown → s' = s) := by
  rw [LinkManager.addNativeSocket, next]
  cases hget : (get s.nativeCbs fd).join with
  | some c =>
    have hfd : ∃ e : Int × C, e ∈ r.natives ∧ e.1 = fd := not_not.mp fun hno => by
      rw [h.toRows.get_native, get_eq_none.mpr hno] at hget
      cases hget
    rw [if_pos Option.isSome_some, if_pos hfd]
    exact ⟨s, .thrown, rfl, h, fun _ => rfl⟩
  | none =>
    obtain ⟨callback, rfl⟩ := isSome_iff_exists.mp (hok hget)
    have hfd := get_eq_none.mp (h.toRows.get_native fd ▸ hget)
    rw [Option.isSome_none, if_neg Bool.false_ne_true, if_neg hfd]
    have hfilter : (s.nativeCbs.filter fun e : Int × Option C => e.1 ≠ fd) ++ [(fd, some callback)] =
        (r.natives ++ [(fd, callback)]).map fun e => (e.1, some e.2) := by
      rw [h.natives, map_append, filter_eq_self.mpr]
      · rfl
      · intro e he
        obtain ⟨e', he', rfl⟩ := mem_map.mp he
        exact decide_eq_true fun heq => hfd ⟨e', he', heq⟩
    have hfds : ((r.natives ++ [(fd, callback)]).map fst).Nodup := by
      rw [map_append]
      exact List.Nodup.append h.fds (nodup_singleton _) (disjoint_singleton.mpr fun hmem => hfd (mem_map.mp hmem))
    obtain ⟨s', hrender, hinv⟩ := @native_spec _ _ _ _ _ h (r.natives ++ [(fd, callback)]) (s.iSockets + 1)
      (by rw [length_append, length_singleton]; omega) (Nat.le_of_eq length_append) hfds
    rw [← hfilter] at hrender
    exact ⟨s', .returned 0, congrArg (bind · _) hrender, hinv, nofun⟩

theorem removeNative_spec (h : Inv s r) (fd : Int) :
    ∃ s' o, s.removeNativeSocket fd = some (s', o) ∧ Inv s' (next r (.removeNativeSocket fd)) ∧ (o = .thrown → s' = s) := by
  rw [LinkManager.removeNativeSocket, next]
  cases hget : (get s.nativeCbs fd).join with
  | none =>
    have hfd := get_eq_none.mp (h.toRows.get_native fd ▸ hget)
    have hsame : (r.natives.filter fun e : Int × C => e.1 ≠ fd) = r.natives :=
      filter_eq_self.mpr fun e he => decide_eq_true fun heq => hfd ⟨e, he, heq⟩
    rw [Option.isNone_none, if_pos rfl, hsame]
    exact ⟨s, .thrown, rfl, h, fun _ => rfl⟩
  | some c =>
    have hfd : ∃ e : Int × C, e ∈ r.natives ∧ e.1 = fd := not_not.mp fun hno => by
      rw [h.toRows.get_native, get_eq_none.mpr hno] at hget
      cases hget
    obtain ⟨e, he, rfl⟩ := hfd
    have hlen := length_filter_ne h.fds he
    have hcount := h.count.trans (entries_length r)
    have hfilter : (s.nativeCbs.filter fun k : Int × Option C => k.1 ≠ e.1) =
        (r.natives.filter fun k => k.1 ≠ e.1).map fun k => (k.1, some k.2) := by
      rw [h.natives, filter_map]
      rfl
    obtain ⟨s', hrender, hinv⟩ := @native_spec _ _ _ _ _ h (r.natives.filter fun k => k.1 ≠ e.1) (s.iSockets - 1) (by omega) (by omega)
      (h.fds.sublist (filter_sublist.map _))
    rw [← hfilter] at hrender
    rw [Option.isNone_some, if_neg Bool.false_ne_true]
    exact ⟨s', .returned 0, congrArg (bind · _) hrender, hinv, nofun⟩

/-- A call that meets the condition: it ends, what is registered is polled, and one that throws has changed nothing. -/
theorem call_spec (h : Inv s r) {e : Ev N H C} (hfresh : Fresh s e) (hok : Ok monitorSockName s e) :
    ∃ s' o, s.call monitorSockName e = some (s', o) ∧ Inv s' (next r e) ∧ (o = .thrown → s' = s) := by
  cases e with
  | addRepSocket server callback zmq => exact addSocket_spec h openRep_some hfresh hok
  | addReqSocket outgoing callback zmq => exact addSocket_spec h openReq_some hfresh hok
  | addNativeSocket fd callback => exact addNative_spec h hok
  | removeNativeSocket fd => exact removeNative_spec h fd
  | close sendId =>
    obtain ⟨s', status, hclose, hinv⟩ := close_spec h hok
    exact ⟨s', .returned status, congrArg (Option.map _) hclose, hinv, nofun⟩

end Calls

section

variable {N H C : Type}

theorem Inv.polls {s : LinkManager N H C} {r : Registered N H C} (h : Inv s r) : Polls s r where
  count := h.count.trans h.written.symm
  items := by rw [h.count, h.items]; exact h.room
  callbacks := by rw [h.count, h.toCallback]; exact h.room
  entries := by rw [h.polled]

theorem new_inv : Inv (.new : LinkManager N H C) ⟨[], [], []⟩ where
  tables := fun b => by cases b <;> rfl
  natives := rfl
  callbacks := fun b => by cases b <;> exact nofun
  count := rfl
  written := rfl
  room := Nat.zero_le _
  items := rfl
  toCallback := rfl
  polled := rfl
  rev := fun b => by cases b <;> exact nofun
  names := fun b => by cases b <;> exact nodup_nil
  sockets := fun {b} => by cases b <;> exact nofun
  monitors := fun {b} => by cases b <;> exact nofun
  addresses := fun b => by cases b <;> exact nofun
  fds := nodup_nil

variable [DecidableEq N] [DecidableEq H] {monitorSockName : H → N}

theorem calls_of_meets {s : LinkManager N H C} {r : Registered N H C} (hinv : Inv s r) {es : List (Ev N H C)}
    (h : Meets (LinkManager.step monitorSockName) (fun s e => Fresh s e ∧ Ok monitorSockName s e) s es) {l : List (Ev N H C)} {e : Ev N H C}
    (hl : l ++ [e] <+: es) : ∃ s1 s' o, exec (LinkManager.step monitorSockName) s l = some s1 ∧ s1.call monitorSockName e = some (s', o) ∧
      Polls s' ((l ++ [e]).foldl next r) ∧ (o = .thrown → s' = s1) := by
  induction l generalizing s r es with
  | nil =>
    obtain ⟨es, rfl⟩ := hl
    obtain ⟨s', o, hcall, hinv', hthrown⟩ := call_spec hinv h.1.1 h.1.2
    exact ⟨s, s', o, rfl, hcall, hinv'.polls, hthrown⟩
  | cons e1 l ih =>
    obtain ⟨es, rfl⟩ := hl
    obtain ⟨s1, o1, hcall, hinv1, -⟩ := call_spec hinv h.1.1 h.1.2
    have hstep : s.step monitorSockName e1 = some s1 := congrArg (Option.map fst) hcall
    obtain ⟨s2, s', o, hrun, hrest⟩ := ih hinv1 (h.2 s1 hstep) (prefix_append _ _)
    exact ⟨s2, s', o, by rw [exec, hstep]; exact hrun, hrest⟩

/-- In every run in which no add fails at the monitor or has a null callback, and no handle of a closed socket's monitor is closed, what is
registered is polled after every call, and a call that throws has changed nothing. -/
theorem sockets_polled {es : List (Ev N H C)}
    (h : Meets (LinkManager.step monitorSockName) (fun s e => Fresh s e ∧ Ok monitorSockName s e) .new es) {l : List (Ev N H C)} {e : Ev N H C}
    (hl : l ++ [e] <+: es) : ∃ s s' o, exec (LinkManager.step monitorSockName) .new l = some s ∧ s.call monitorSockName e = some (s', o) ∧
      Polls s' ((l ++ [e]).foldl next ⟨[], [], []⟩) ∧ (o = .thrown → s' = s) :=
  calls_of_meets new_inv h hl

theorem sockets_polled_three : ∃ s s' o, exec (LinkManager.step id) (.new : LinkManager Nat Nat Nat)
      [.addRepSocket 1 (some 5) (.good 10 11), .addReqSocket 1 (some 6) (.good 12 13), .addNativeSocket 3 (some 7)] = some s ∧
    s.call id (.close 10) = some (s', o) ∧ Polls s' ⟨[], [⟨1, 12, 13, 6⟩], [(3, 7)]⟩ ∧ (o = .thrown → s' = s) :=
  @sockets_polled Nat Nat Nat _ _ id [.addRepSocket 1 (some 5) (.good 10 11), .addReqSocket 1 (some 6) (.good 12 13),
    .addNativeSocket 3 (some 7), .close 10] (by decide +kernel) [.addRepSocket 1 (some 5) (.good 10 11), .addReqSocket 1 (some 6) (.good 12 13),
    .addNativeSocket 3 (some 7)] (.close 10) (prefix_refl _)

end

end DeepFabric.Platform.LinkManagers
