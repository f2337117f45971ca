/-
  DeepFabric.Distributed.Publish — the replies a committing thread waits for
  (fabricconnector/FabricMessageService.cxx: publishDataLog, sendVirtualKeySpaceVersionRequest,
  dispatchMessage; distributed/MapFacilitator.cxx: setContextCompleted, setContextResult,
  waitForResult).

  A thread has one completed flag and one result. Publishing clears the flag, sends the data log
  of the commit to one subscriber after the other, and behind each synchronous one it waits for
  the flag. Asking a subscriber for the version of its key space clears the flag, sends the
  request, waits for the flag and reads the result. A subscriber handles its messages in order: it
  applies a data log and then replies with a success, and it answers a request with its version. A
  service puts the replies of all subscribers into one queue; dispatching one sets the flag of the
  thread it names, whatever that thread waits for.

  Links are lossless and ordered. `applied` and `sent` are what the subscribers have done,
  `returned` and `answers` what the threads have come back with.

  As built, the flag is not cleared between two subscribers, and a thread may begin to wait with
  replies to an earlier message of its own still under way.
  - `second_slave_missed`: with two synchronous slaves the second one is not waited for.
  - `step_inv` / `inv`, `publish_acknowledged`: both are right in every run where a thread begins
    to wait only with no message of its own under way, and only the first subscriber is
    synchronous.
-/
import DeepFabric.Lib.Run

namespace DeepFabric.Distributed.Publish

open DeepFabric.Lib.Run List Option Function
open Function (update)

inductive Msg where
  | dataLog (commit thread : Nat)
  | versionRequest (request thread : Nat)
  deriving DecidableEq, Repr

inductive Reply where
  | success (thread : Nat)
  | version (version thread : Nat)
  deriving DecidableEq, Repr

def Msg.thread : Msg → Nat
  | .dataLog _ t => t
  | .versionRequest _ t => t

def Reply.thread : Reply → Nat
  | .success t => t
  | .version _ t => t

inductive Phase where
  | idle
  /-- In the loop of publishDataLog, with the subscribers it has not sent to. -/
  | publishing (commit : Nat) (left : List Nat)
  | waiting (commit peer : Nat) (left : List Nat)
  | requesting (request peer : Nat)
  | awaiting (request : Nat)
  /-- Out of waitForResult and ahead of getContextResult. -/
  | released (request : Nat)
  deriving DecidableEq, Repr

structure Thread where
  phase : Phase
  completed : Bool
  result : Nat
  deriving DecidableEq, Repr

structure St where
  thread : Nat → Thread
  toPeer : Nat → List Msg
  fromPeer : Nat → List Reply
  messages : List Reply
  /-- Of a subscriber's key space. -/
  version : Nat → Nat
  commits : Nat
  requests : Nat
  /-- The subscriber and the commit. -/
  applied : List (Nat × Nat)
  /-- The request and the version in its answer. -/
  sent : List (Nat × Nat)
  returned : List Nat
  answers : List (Nat × Nat)

def init : St where
  thread _ := ⟨.idle, false, 0⟩
  toPeer _ := []
  fromPeer _ := []
  messages := []
  version _ := 0
  commits := 0
  requests := 0
  applied := []
  sent := []
  returned := []
  answers := []

inductive Ev where
  | publish (t : Nat)
  | send (t : Nat)
  | resume (t : Nat)
  | finish (t : Nat)
  | request (t peer : Nat)
  | sendRequest (t : Nat)
  | result (t : Nat)
  /-- A subscriber handles its next message. -/
  | handle (peer : Nat)
  /-- The next reply of a subscriber comes into the queue of the service. -/
  | arrive (peer : Nat)
  | dispatch
  | upgrade (peer version : Nat)
  deriving DecidableEq, Repr

def setThread (s : St) (t : Nat) (th : Thread) : St := { s with thread := update s.thread t th }

def post (s : St) (peer : Nat) (m : Msg) : St :=
  { s with toPeer := update s.toPeer peer (s.toPeer peer ++ [m]) }

def reply (s : St) (peer : Nat) (r : Reply) : St :=
  { s with fromPeer := update s.fromPeer peer (s.fromPeer peer ++ [r]) }

/-- dispatchMessage on the subscriber. -/
def handleMessage (s : St) (peer : Nat) : Msg → St
  | .dataLog commit t => reply { s with applied := (peer, commit) :: s.applied } peer (.success t)
  | .versionRequest request t =>
    reply { s with sent := (request, s.version peer) :: s.sent } peer (.version (s.version peer) t)

/-- dispatchMessage on the service that has waited. -/
def dispatchMessage (s : St) : Reply → St
  | .success t => if t ≠ 0 then setThread s t { s.thread t with completed := true } else s
  | .version v t => setThread s t { s.thread t with result := v, completed := true }

/-- `sync` are the DISTRIBUTED_HA_SYNC_SLAVE ones. -/
def step (subscribers : List Nat) (sync : Nat → Bool) (s : St) : Ev → Option St
  | .publish t =>
    if t ≠ 0 ∧ (s.thread t).phase = .idle then
      some (setThread { s with commits := s.commits + 1 } t
        { s.thread t with phase := .publishing s.commits subscribers, completed := false })
    else none
  | .send t =>
    match (s.thread t).phase with
    | .publishing commit (peer :: left) =>
      some (post (setThread s t { s.thread t with
        phase := if sync peer then .waiting commit peer left else .publishing commit left }) peer (.dataLog commit t))
    | _ => none
  | .resume t =>
    match (s.thread t).phase with
    | .waiting commit _ left =>
      if (s.thread t).completed then some (setThread s t { s.thread t with phase := .publishing commit left }) else none
    | .awaiting request =>
      if (s.thread t).completed then some (setThread s t { s.thread t with phase := .released request }) else none
    | _ => none
  | .finish t =>
    match (s.thread t).phase with
    | .publishing commit [] =>
      some (setThread { s with returned := commit :: s.returned } t { s.thread t with phase := .idle })
    | _ => none
  | .request t peer =>
    if t ≠ 0 ∧ (s.thread t).phase = .idle ∧ peer ∈ subscribers then
      some (setThread { s with requests := s.requests + 1 } t
        { s.thread t with phase := .requesting s.requests peer, completed := false })
    else none
  | .sendRequest t =>
    match (s.thread t).phase with
    | .requesting request peer =>
      some (post (setThread s t { s.thread t with phase := .awaiting request }) peer (.versionRequest request t))
    | _ => none
  | .result t =>
    match (s.thread t).phase with
    | .released request =>
      some (setThread { s with answers := (request, (s.thread t).result) :: s.answers } t { s.thread t with phase := .idle })
    | _ => none
  | .handle peer =>
    if peer ∈ subscribers then
      match s.toPeer peer with
      | m :: rest => some (handleMessage { s with toPeer := update s.toPeer peer rest } peer m)
      | [] => none
    else none
  | .arrive peer =>
    if peer ∈ subscribers then
      match s.fromPeer peer with
      | r :: rest => some { s with fromPeer := update s.fromPeer peer rest, messages := s.messages ++ [r] }
      | [] => none
    else none
  | .dispatch =>
    match s.messages with
    | r :: rest => some (dispatchMessage { s with messages := rest } r)
    | [] => none
  | .upgrade peer version => some { s with version := update s.version peer version }

/-! ## What goes wrong -/

/-- Every synchronous slave has applied what a publish returned for, and every version was the answer to its request. -/
def Acknowledged (subscribers : List Nat) (sync : Nat → Bool) (s : St) : Prop :=
  (∀ commit ∈ s.returned, ∀ p ∈ subscribers, sync p = true → (p, commit) ∈ s.applied) ∧ ∀ a ∈ s.answers, a ∈ s.sent

/-- Thread 7 waits for slave 1, and the flag is still up when it comes to slave 2. -/
def secondTrace : List Ev :=
  [.publish 7, .send 7, .handle 1, .arrive 1, .dispatch, .resume 7, .send 7, .resume 7, .finish 7]

theorem second_slave_missed : ∃ s, Reach (step [1, 2] fun _ => true) Free init s
    ∧ ¬Acknowledged [1, 2] (fun _ => true) s := by
  obtain ⟨s, hs, hr, ha⟩ : ∃ s, exec (step [1, 2] fun _ => true) init secondTrace = some s ∧ s.returned = [0]
      ∧ s.applied = [(1, 0)] := exec_ends (by decide +kernel)
  refine ⟨s, reach_of_exec _ hs, ?_⟩
  intro ⟨h, _⟩
  have := h 0 (by rw [hr]; exact mem_singleton_self 0) 2 (by decide) rfl
  rw [ha] at this
  exact absurd this (by decide)

/-- Slave 1 is asynchronous and has version 5. Its reply to the data log comes while thread 7 waits for the version. -/
def staleTrace : List Ev :=
  [.upgrade 1 5, .publish 7, .send 7, .finish 7, .handle 1, .request 7 1, .sendRequest 7, .arrive 1, .dispatch, .resume 7,
   .handle 1, .result 7]

theorem stale_version : ∃ s, Reach (step [1] fun _ => false) Free init s ∧ s.sent = [(0, 5)] ∧ s.answers = [(0, 0)] := by
  obtain ⟨s, hs, h⟩ : ∃ s, exec (step [1] fun _ => false) init staleTrace = some s ∧ s.sent = [(0, 5)]
      ∧ s.answers = [(0, 0)] := exec_ends (by decide +kernel)
  exact ⟨s, reach_of_exec _ hs, h⟩

/-! ## What is under way for a thread -/

/-- All messages of a thread that are under way are as said. -/
structure UnderWay (subscribers : List Nat) (P : Nat → Msg → Prop) (Q : Reply → Prop) (s : St) (t : Nat) : Prop where
  toPeer : ∀ p ∈ subscribers, ∀ m ∈ s.toPeer p, m.thread = t → P p m
  fromPeer : ∀ p ∈ subscribers, ∀ r ∈ s.fromPeer p, r.thread = t → Q r
  messages : ∀ r ∈ s.messages, r.thread = t → Q r

def Quiet (subscribers : List Nat) (s : St) (t : Nat) : Prop :=
  UnderWay subscribers (fun _ _ => False) (fun _ => False) s t

/-- A thread begins to wait with nothing under way, and no subscriber behind the first one is synchronous. -/
def WaitSafe (subscribers : List Nat) (sync : Nat → Bool) (s : St) : Ev → Prop
  | .publish t => (∀ p ∈ subscribers.tail, sync p = false) ∧ ((∃ p ∈ subscribers, sync p = true) → Quiet subscribers s t)
  | .request t _ => Quiet subscribers s t
  | _ => True

section Steps
variable {subscribers : List Nat} {P : Nat → Msg → Prop} {Q : Reply → Prop} {s : St} {t : Nat}

theorem UnderWay.mono {P' : Nat → Msg → Prop} {Q' : Reply → Prop} (h : UnderWay subscribers P Q s t)
    (hP : ∀ p m, P p m → P' p m) (hQ : ∀ r, Q r → Q' r) : UnderWay subscribers P' Q' s t where
  toPeer p hp m hm ht := hP p m (h.toPeer p hp m hm ht)
  fromPeer p hp r hr ht := hQ r (h.fromPeer p hp r hr ht)
  messages r hr ht := hQ r (h.messages r hr ht)

variable {peer : Nat}

/-- A thread posts a message: what is said has to hold of it if it is its own. -/
theorem UnderWay.post (h : UnderWay subscribers P Q s t) {m : Msg} (hm : m.thread = t → P peer m) :
    UnderWay subscribers P Q (post s peer m) t where
  toPeer p hp x hx ht := by
    dsimp only [Publish.post] at hx
    rcases eq_or_ne p peer with rfl | hne
    · rw [update_self] at hx
      rcases mem_append.mp hx with hx | hx
      · exact h.toPeer p hp x hx ht
      · cases mem_singleton.mp hx
        exact hm ht
    · rw [update_of_ne hne] at hx
      exact h.toPeer p hp x hx ht
  fromPeer := h.fromPeer
  messages := h.messages

variable {r : Reply}

/-- A subscriber takes its next message and replies to it. -/
theorem UnderWay.handle (h : UnderWay subscribers P Q s t) {m : Msg} {rest : List Msg}
    (hto : s.toPeer peer = m :: rest) (hr : r.thread = t → Q r) :
    UnderWay subscribers P Q (reply { s with toPeer := update s.toPeer peer rest } peer r) t where
  toPeer p hp x hx ht := by
    dsimp only [reply] at hx
    rcases eq_or_ne p peer with rfl | hne
    · rw [update_self] at hx
      exact h.toPeer p hp x (by rw [hto]; exact mem_cons_of_mem _ hx) ht
    · rw [update_of_ne hne] at hx
      exact h.toPeer p hp x hx ht
  fromPeer p hp x hx ht := by
    dsimp only [reply] at hx
    rcases eq_or_ne p peer with rfl | hne
    · rw [update_self] at hx
      rcases mem_append.mp hx with hx | hx
      · exact h.fromPeer p hp x hx ht
      · cases mem_singleton.mp hx
        exact hr ht
    · rw [update_of_ne hne] at hx
      exact h.fromPeer p hp x hx ht
  messages := h.messages

theorem UnderWay.arrive (h : UnderWay subscribers P Q s t) (hp : peer ∈ subscribers)
    {rest : List Reply} (hfrom : s.fromPeer peer = r :: rest) :
    UnderWay subscribers P Q
      { s with
        fromPeer := update s.fromPeer peer rest
        messages := s.messages ++ [r] } t where
  toPeer := h.toPeer
  fromPeer p hp' x hx ht := by
    dsimp only at hx
    rcases eq_or_ne p peer with rfl | hne
    · rw [update_self] at hx
      exact h.fromPeer p hp' x (by rw [hfrom]; exact mem_cons_of_mem _ hx) ht
    · rw [update_of_ne hne] at hx
      exact h.fromPeer p hp' x hx ht
  messages x hx ht := by
    rcases mem_append.mp hx with hx | hx
    · exact h.messages x hx ht
    · cases mem_singleton.mp hx
      exact h.fromPeer peer hp r (by rw [hfrom]; exact mem_cons_self) ht

theorem UnderWay.dispatch (h : UnderWay subscribers P Q s t) {rest : List Reply} (hq : s.messages = r :: rest) :
    UnderWay subscribers P Q { s with messages := rest } t where
  toPeer := h.toPeer
  fromPeer := h.fromPeer
  messages x hx ht := h.messages x (by rw [hq]; exact mem_cons_of_mem _ hx) ht

end Steps

/-! ## The invariant -/

section Invariant
variable (subscribers : List Nat) (sync : Nat → Bool)

/-- What a thread that waits for something may rely on. -/
def Waits (s : St) (t : Nat) (th : Thread) : Prop :=
  match th.phase with
  | .idle => True
  | .publishing commit left =>
    (∀ p ∈ left.tail, sync p = false) ∧ ((∃ p ∈ left, sync p = true) → Quiet subscribers s t ∧ th.completed = false)
      ∧ ∀ p ∈ subscribers, sync p = true → p ∈ left ∨ (p, commit) ∈ s.applied
  | .waiting commit peer left =>
    UnderWay subscribers (fun p m => p = peer ∧ m = .dataLog commit t) (fun _ => (peer, commit) ∈ s.applied) s t
      ∧ (th.completed = true → (peer, commit) ∈ s.applied) ∧ (∀ p ∈ left, sync p = false)
      ∧ ∀ p ∈ subscribers, sync p = true → p = peer ∨ (p, commit) ∈ s.applied
  | .requesting _ _ => Quiet subscribers s t ∧ th.completed = false
  | .awaiting request =>
    UnderWay subscribers (fun _ m => m = .versionRequest request t) (fun r => ∃ v, r = .version v t ∧ (request, v) ∈ s.sent) s t
      ∧ (th.completed = true → (request, th.result) ∈ s.sent)
  | .released request =>
    UnderWay subscribers (fun _ m => m = .versionRequest request t) (fun r => ∃ v, r = .version v t ∧ (request, v) ∈ s.sent) s t
      ∧ (request, th.result) ∈ s.sent

structure Inv (s : St) : Prop where
  threads : ∀ t, Waits subscribers sync s t (s.thread t)
  acknowledged : Acknowledged subscribers sync s

theorem init_inv : Inv subscribers sync init where
  threads _ := trivial
  acknowledged := ⟨fun _ h => absurd h not_mem_nil, fun _ h => absurd h not_mem_nil⟩

variable {subscribers sync} {s s' : St}

variable {t : Nat} {th : Thread}

/-- A thread that has its messages under way as before may rely on the same. -/
theorem Waits.mono (h : Waits subscribers sync s t th)
    (hway : ∀ P Q, UnderWay subscribers P Q s t → UnderWay subscribers P Q s' t) (happ : ∀ x ∈ s.applied, x ∈ s'.applied)
    (hsent : ∀ x ∈ s.sent, x ∈ s'.sent) : Waits subscribers sync s' t th := by
  obtain ⟨phase, completed, result⟩ := th
  cases phase with
  | idle => trivial
  | publishing commit left =>
    obtain ⟨h1, h2, h3⟩ := h
    exact ⟨h1, fun hx => ⟨hway _ _ (h2 hx).1, (h2 hx).2⟩, fun p hp hs => (h3 p hp hs).imp_right (happ _)⟩
  | waiting commit peer left =>
    obtain ⟨h1, h2, h3, h4⟩ := h
    refine ⟨(hway _ _ h1).mono (fun _ _ => id) (fun _ => happ _), fun hc => happ _ (h2 hc), h3, ?_⟩
    exact fun p hp hs => (h4 p hp hs).imp_right (happ _)
  | requesting request peer => exact ⟨hway _ _ h.1, h.2⟩
  | awaiting request =>
    refine ⟨(hway _ _ h.1).mono (fun _ _ => id) ?_, fun hc => hsent _ (h.2 hc)⟩
    intro r ⟨v, hr, hv⟩
    exact ⟨v, hr, hsent _ hv⟩
  | released request =>
    refine ⟨(hway _ _ h.1).mono (fun _ _ => id) ?_, hsent _ h.2⟩
    intro r ⟨v, hr, hv⟩
    exact ⟨v, hr, hsent _ hv⟩

theorem Waits.frame (h : Waits subscribers sync s t th) (hto : s'.toPeer = s.toPeer)
    (hfrom : s'.fromPeer = s.fromPeer) (hmsg : s'.messages = s.messages) (happ : s'.applied = s.applied)
    (hsent : s'.sent = s.sent) : Waits subscribers sync s' t th := by
  refine h.mono (fun P Q h => ⟨?_, ?_, ?_⟩) (fun _ hx => happ ▸ hx) fun _ hx => hsent ▸ hx
  · rw [hto]
    exact h.toPeer
  · rw [hfrom]
    exact h.fromPeer
  · rw [hmsg]
    exact h.messages

theorem Acknowledged.mono (h : Acknowledged subscribers sync s) (hret : s'.returned = s.returned)
    (hans : s'.answers = s.answers) (happ : ∀ x ∈ s.applied, x ∈ s'.applied) (hsent : ∀ x ∈ s.sent, x ∈ s'.sent) :
    Acknowledged subscribers sync s' := by
  refine ⟨fun commit hc p hp hs => ?_, fun a ha => ?_⟩
  · rw [hret] at hc
    exact happ _ (h.1 commit hc p hp hs)
  · rw [hans] at ha
    exact hsent _ (h.2 a ha)

/-- One thread goes on, and posts at most a message of its own. -/
theorem setThread_inv (hi : Inv subscribers sync s) (ht : Waits subscribers sync s t th) :
    Inv subscribers sync (setThread s t th) where
  threads t' := by
    rcases eq_or_ne t' t with rfl | hne
    · rw [show (setThread s t' th).thread t' = th from update_self ..]
      exact ht.frame rfl rfl rfl rfl rfl
    · rw [show (setThread s t th).thread t' = s.thread t' from update_of_ne hne ..]
      exact (hi.threads t').frame rfl rfl rfl rfl rfl
  acknowledged := hi.acknowledged

variable {peer : Nat}

theorem post_inv (hi : Inv subscribers sync s) {m : Msg} (hm : m.thread = t)
    (ht : Waits subscribers sync (post s peer m) t th) : Inv subscribers sync (post (setThread s t th) peer m) where
  threads t' := by
    rcases eq_or_ne t' t with rfl | hne
    · rw [show (post (setThread s t' th) peer m).thread t' = th from update_self ..]
      exact ht.frame rfl rfl rfl rfl rfl
    · rw [show (post (setThread s t th) peer m).thread t' = s.thread t' from update_of_ne hne ..]
      refine (hi.threads t').mono (fun P Q h => ?_) (fun _ => id) fun _ => id
      have hp : UnderWay subscribers P Q (post s peer m) t' := h.post fun h' => absurd (h'.symm.trans hm) hne
      exact ⟨hp.toPeer, hp.fromPeer, hp.messages⟩
  acknowledged := hi.acknowledged

/-! ## Steps -/

theorem publish_inv (hi : Inv subscribers sync s) (hok : WaitSafe subscribers sync s (.publish t)) :
    Inv subscribers sync (setThread { s with commits := s.commits + 1 } t
      { s.thread t with phase := .publishing s.commits subscribers, completed := false }) := by
  have hi' : Inv subscribers sync { s with commits := s.commits + 1 } :=
    ⟨fun t' => (hi.threads t').frame rfl rfl rfl rfl rfl, hi.acknowledged⟩
  refine setThread_inv hi' ⟨hok.1, fun hx => ⟨?_, rfl⟩, fun p hp _ => .inl hp⟩
  have hq := hok.2 hx
  exact ⟨hq.toPeer, hq.fromPeer, hq.messages⟩

variable {commit : Nat}

theorem send_inv (hi : Inv subscribers sync s) {left : List Nat}
    (hp : (s.thread t).phase = .publishing commit (peer :: left)) :
    Inv subscribers sync (post (setThread s t { s.thread t with
      phase := if sync peer then .waiting commit peer left else .publishing commit left }) peer (.dataLog commit t)) := by
  have hw := hi.threads t
  unfold Waits at hw
  rw [hp] at hw
  obtain ⟨htail, hquiet, hcover⟩ := hw
  have htail : ∀ p ∈ left, sync p = false := htail
  refine post_inv hi rfl ?_
  unfold Waits
  by_cases hs : sync peer = true
  · obtain ⟨hq, hc⟩ := hquiet ⟨peer, mem_cons_self, hs⟩
    have hway := (hq.mono (fun _ _ h => absurd h id) (fun _ h => absurd h id) :
      UnderWay subscribers (fun p m => p = peer ∧ m = .dataLog commit t) (fun _ => (peer, commit) ∈ s.applied) s t)
    simp only [hs, if_true]
    refine ⟨hway.post fun _ => ⟨rfl, rfl⟩, fun h => ?_, htail, fun p hp hsp => ?_⟩
    · rw [hc] at h
      cases h
    · rcases hcover p hp hsp with h | h
      · rcases mem_cons.mp h with h | h
        · exact .inl h
        · rw [htail p h] at hsp
          cases hsp
      · exact .inr h
  · have hs : sync peer = false := by simpa using hs
    simp only [hs, Bool.false_eq_true, if_false]
    refine ⟨fun p hp => htail p (mem_of_mem_tail hp), fun ⟨p, hp, hsp⟩ => ?_, fun p hp hsp => ?_⟩
    · rw [htail p hp] at hsp
      cases hsp
    · rcases hcover p hp hsp with h | h
      · rcases mem_cons.mp h with rfl | h
        · rw [hs] at hsp
          cases hsp
        · exact .inl h
      · exact .inr h

theorem resume_inv (hi : Inv subscribers sync s) {left : List Nat}
    (hp : (s.thread t).phase = .waiting commit peer left) (hc : (s.thread t).completed = true) :
    Inv subscribers sync (setThread s t { s.thread t with phase := .publishing commit left }) := by
  have hw := hi.threads t
  unfold Waits at hw
  rw [hp] at hw
  obtain ⟨-, happ, hleft, hcover⟩ := hw
  refine setThread_inv hi ⟨fun p hp => hleft p (mem_of_mem_tail hp), fun ⟨p, hp, hsp⟩ => ?_, fun p hp hsp => ?_⟩
  · rw [hleft p hp] at hsp
    cases hsp
  · rcases hcover p hp hsp with rfl | h
    · exact .inr (happ hc)
    · exact .inr h

variable {request : Nat}

theorem released_inv (hi : Inv subscribers sync s) (hp : (s.thread t).phase = .awaiting request)
    (hc : (s.thread t).completed = true) :
    Inv subscribers sync (setThread s t { s.thread t with phase := .released request }) := by
  have hw := hi.threads t
  unfold Waits at hw
  rw [hp] at hw
  exact setThread_inv hi ⟨hw.1, hw.2 hc⟩

theorem finish_inv (hi : Inv subscribers sync s) (hp : (s.thread t).phase = .publishing commit []) :
    Inv subscribers sync (setThread { s with returned := commit :: s.returned } t { s.thread t with phase := .idle }) := by
  have hw := hi.threads t
  unfold Waits at hw
  rw [hp] at hw
  obtain ⟨-, -, hcover⟩ := hw
  have hi' : Inv subscribers sync { s with returned := commit :: s.returned } := by
    refine ⟨fun t' => (hi.threads t').frame rfl rfl rfl rfl rfl,
      fun c hc p hsub hsp => ?_, hi.acknowledged.2⟩
    rcases mem_cons.mp hc with rfl | hc
    · exact (hcover p hsub hsp).resolve_left not_mem_nil
    · exact hi.acknowledged.1 c hc p hsub hsp
  exact setThread_inv hi' trivial

theorem request_inv (hi : Inv subscribers sync s) (hok : WaitSafe subscribers sync s (.request t peer)) :
    Inv subscribers sync (setThread { s with requests := s.requests + 1 } t
      { s.thread t with phase := .requesting s.requests peer, completed := false }) := by
  have hi' : Inv subscribers sync { s with requests := s.requests + 1 } :=
    ⟨fun t' => (hi.threads t').frame rfl rfl rfl rfl rfl, hi.acknowledged⟩
  have hq : Quiet subscribers s t := hok
  exact setThread_inv hi' ⟨⟨hq.toPeer, hq.fromPeer, hq.messages⟩, rfl⟩

theorem sendRequest_inv (hi : Inv subscribers sync s)
    (hp : (s.thread t).phase = .requesting request peer) :
    Inv subscribers sync (post (setThread s t { s.thread t with phase := .awaiting request }) peer (.versionRequest request t)) := by
  have hw := hi.threads t
  unfold Waits at hw
  rw [hp] at hw
  obtain ⟨hq, hc⟩ := hw
  have hway := (hq.mono (fun _ _ h => absurd h id) (fun _ h => absurd h id) : UnderWay subscribers
    (fun _ m => m = .versionRequest request t) (fun r => ∃ v, r = .version v t ∧ (request, v) ∈ s.sent) s t)
  refine post_inv hi rfl ⟨hway.post fun _ => rfl, fun h => ?_⟩
  rw [show (s.thread t).completed = true from h] at hc
  cases hc

theorem result_inv (hi : Inv subscribers sync s) (hp : (s.thread t).phase = .released request) :
    Inv subscribers sync (setThread { s with answers := (request, (s.thread t).result) :: s.answers } t
      { s.thread t with phase := .idle }) := by
  have hw := hi.threads t
  unfold Waits at hw
  rw [hp] at hw
  have hi' : Inv subscribers sync { s with answers := (request, (s.thread t).result) :: s.answers } := by
    refine ⟨fun t' => (hi.threads t').frame rfl rfl rfl rfl rfl,
      hi.acknowledged.1, fun a ha => ?_⟩
    rcases mem_cons.mp ha with rfl | ha
    · exact hw.2
    · exact hi.acknowledged.2 a ha
  exact setThread_inv hi' trivial

/-- A subscriber has applied a data log and replies. Whoever waits for a reply waits for this one. -/
theorem handleLog_inv (hi : Inv subscribers sync s) {rest : List Msg} (hsub : peer ∈ subscribers)
    (hto : s.toPeer peer = .dataLog commit t :: rest) :
    Inv subscribers sync (handleMessage { s with toPeer := update s.toPeer peer rest } peer (.dataLog commit t)) where
  threads t' := by
    have hown {P : Nat → Msg → Prop} {Q : Reply → Prop} (h : UnderWay subscribers P Q s t) : P peer (.dataLog commit t) :=
      h.toPeer peer hsub _ (by rw [hto]; exact mem_cons_self) rfl
    have happ : ∀ x ∈ s.applied, x ∈ (peer, commit) :: s.applied := fun _ => mem_cons_of_mem _
    rcases eq_or_ne t' t with rfl | hne
    · have hw := hi.threads t'
      show Waits subscribers sync _ t' (s.thread t')
      generalize s.thread t' = th at hw
      obtain ⟨phase, completed, result⟩ := th
      cases phase with
      | idle => trivial
      | publishing c left =>
        obtain ⟨h1, h2, h3⟩ := hw
        exact ⟨h1, fun hx => (hown (h2 hx).1).elim, fun p hp hs => (h3 p hp hs).imp_right (happ _)⟩
      | waiting c p left =>
        obtain ⟨h1, h2, h3, h4⟩ := hw
        obtain ⟨rfl, heq⟩ := hown h1
        cases heq
        have hmem : (peer, commit) ∈ (peer, commit) :: s.applied := mem_cons_self
        have hway := (h1.mono (fun _ _ => id) (fun _ _ => hmem)).handle hto (r := .success t') fun _ => hmem
        refine ⟨⟨hway.toPeer, hway.fromPeer, hway.messages⟩, fun _ => hmem, h3, ?_⟩
        exact fun p hp hs => (h4 p hp hs).imp_right (happ _)
      | requesting r p => exact (hown hw.1).elim
      | awaiting r => cases hown hw.1
      | released r => cases hown hw.1
    · refine (hi.threads t').mono (fun P Q h => ?_) happ fun _ => id
      have hway := h.handle hto (r := .success t) fun h' => absurd h'.symm hne
      exact ⟨hway.toPeer, hway.fromPeer, hway.messages⟩
  acknowledged := hi.acknowledged.mono rfl rfl (fun _ => mem_cons_of_mem _) fun _ => id

theorem handleRequest_inv (hi : Inv subscribers sync s) {rest : List Msg} (hsub : peer ∈ subscribers)
    (hto : s.toPeer peer = .versionRequest request t :: rest) :
    Inv subscribers sync
      (handleMessage { s with toPeer := update s.toPeer peer rest } peer (.versionRequest request t)) where
  threads t' := by
    have hown {P : Nat → Msg → Prop} {Q : Reply → Prop} (h : UnderWay subscribers P Q s t) :
        P peer (.versionRequest request t) := h.toPeer peer hsub _ (by rw [hto]; exact mem_cons_self) rfl
    have hsent : ∀ x ∈ s.sent, x ∈ (request, s.version peer) :: s.sent := fun _ => mem_cons_of_mem _
    rcases eq_or_ne t' t with rfl | hne
    · have hw := hi.threads t'
      show Waits subscribers sync _ t' (s.thread t')
      generalize s.thread t' = th at hw
      obtain ⟨phase, completed, result⟩ := th
      have hanswer {r : Nat} (h : UnderWay subscribers (fun _ m => m = .versionRequest r t')
          (fun x => ∃ v, x = .version v t' ∧ (r, v) ∈ s.sent) s t') : UnderWay subscribers
          (fun _ m => m = .versionRequest r t') (fun x => ∃ v, x = .version v t' ∧ (r, v) ∈ (request, s.version peer) :: s.sent)
          (reply { s with toPeer := update s.toPeer peer rest } peer (.version (s.version peer) t')) t' := by
        cases hown h
        refine (h.mono (fun _ _ => id) fun x ⟨v, hx, hv⟩ => ⟨v, hx, hsent _ hv⟩).handle hto fun _ => ?_
        exact ⟨_, rfl, mem_cons_self⟩
      cases phase with
      | idle => trivial
      | publishing c left =>
        obtain ⟨h1, h2, h3⟩ := hw
        exact ⟨h1, fun hx => (hown (h2 hx).1).elim, h3⟩
      | waiting c p left => cases (hown hw.1).2
      | requesting r p => exact (hown hw.1).elim
      | awaiting r =>
        have hway := hanswer hw.1
        exact ⟨⟨hway.toPeer, hway.fromPeer, hway.messages⟩, fun hc => hsent _ (hw.2 hc)⟩
      | released r =>
        have hway := hanswer hw.1
        exact ⟨⟨hway.toPeer, hway.fromPeer, hway.messages⟩, hsent _ hw.2⟩
    · refine (hi.threads t').mono (fun P Q h => ?_) (fun _ => id) hsent
      have hway := h.handle hto (r := .version (s.version peer) t) fun h' => absurd h'.symm hne
      exact ⟨hway.toPeer, hway.fromPeer, hway.messages⟩
  acknowledged := hi.acknowledged.mono rfl rfl (fun _ => id) fun _ => mem_cons_of_mem _

theorem arrive_inv (hi : Inv subscribers sync s) {r : Reply} {rest : List Reply} (hsub : peer ∈ subscribers)
    (hfrom : s.fromPeer peer = r :: rest) :
    Inv subscribers sync
      { s with
        fromPeer := update s.fromPeer peer rest
        messages := s.messages ++ [r] } where
  threads t := (hi.threads t).mono (fun _ _ h => h.arrive hsub hfrom) (fun _ => id) fun _ => id
  acknowledged := hi.acknowledged

/-- The reply that comes to a thread is the one it waits for. Only a thread that asks for a version looks at the result. -/
theorem Waits.complete {r : Reply} {rest : List Reply} (hw : Waits subscribers sync s t th)
    (hw' : Waits subscribers sync { s with messages := rest } t th)
    (hown : ∀ {P : Nat → Msg → Prop} {Q : Reply → Prop}, UnderWay subscribers P Q s t → Q r) {result : Nat}
    (hanswer : ∀ request, (∃ v, r = .version v t ∧ (request, v) ∈ s.sent) → (request, result) ∈ s.sent) :
    Waits subscribers sync { s with messages := rest } t { th with result := result, completed := true } := by
  obtain ⟨phase, completed, _⟩ := th
  cases phase with
  | idle => trivial
  | publishing c left => exact ⟨hw.1, fun hx => (hown (hw.2.1 hx).1).elim, hw.2.2⟩
  | waiting c p left => exact ⟨hw'.1, fun _ => hown hw.1, hw.2.2⟩
  | requesting request p => exact (hown hw.1).elim
  | awaiting request => exact ⟨hw'.1, fun _ => hanswer request (hown hw.1)⟩
  | released request => exact ⟨hw'.1, hanswer request (hown hw.1)⟩

theorem dispatch_inv (hi : Inv subscribers sync s) {r : Reply} {rest : List Reply} (hq : s.messages = r :: rest) :
    Inv subscribers sync (dispatchMessage { s with messages := rest } r) := by
  have hi' : Inv subscribers sync { s with messages := rest } :=
    ⟨fun t => (hi.threads t).mono (fun _ _ h => h.dispatch hq) (fun _ => id) fun _ => id, hi.acknowledged⟩
  have hown {P : Nat → Msg → Prop} {Q : Reply → Prop} {t : Nat} (h : UnderWay subscribers P Q s t) (ht : r.thread = t) : Q r :=
    h.messages r (by rw [hq]; exact mem_cons_self) ht
  cases r with
  | success t =>
    simp only [dispatchMessage]
    by_cases h0 : t ≠ 0
    · rw [if_pos h0]
      refine setThread_inv hi' ((hi.threads t).complete (hi'.threads t) (hown · rfl) ?_)
      rintro request ⟨v, hv, -⟩
      cases hv
    · rw [if_neg h0]
      exact hi'
  | version v t =>
    refine setThread_inv hi' ((hi.threads t).complete (hi'.threads t) (hown · rfl) ?_)
    rintro request ⟨v', hv, hsent⟩
    cases hv
    exact hsent

theorem step_inv {e : Ev} (hi : Inv subscribers sync s) (hok : WaitSafe subscribers sync s e)
    (h : step subscribers sync s e = some s') : Inv subscribers sync s' := by
  unfold step at h
  cases e with
  | publish t =>
    obtain ⟨-, ⟨⟩⟩ := ite_none_right_eq_some.mp h
    exact publish_inv hi hok
  | send t =>
    dsimp only at h
    split at h
    · rename_i commit peer left hp
      cases h
      exact send_inv hi hp
    · cases h
  | resume t =>
    dsimp only at h
    split at h
    · rename_i hp
      obtain ⟨hc, ⟨⟩⟩ := ite_none_right_eq_some.mp h
      exact resume_inv hi hp hc
    · rename_i hp
      obtain ⟨hc, ⟨⟩⟩ := ite_none_right_eq_some.mp h
      exact released_inv hi hp hc
    · cases h
  | finish t =>
    dsimp only at h
    split at h
    · rename_i hp
      cases h
      exact finish_inv hi hp
    · cases h
  | request t peer =>
    obtain ⟨-, ⟨⟩⟩ := ite_none_right_eq_some.mp h
    exact request_inv hi hok
  | sendRequest t =>
    dsimp only at h
    split at h
    · rename_i hp
      cases h
      exact sendRequest_inv hi hp
    · cases h
  | result t =>
    dsimp only at h
    split at h
    · rename_i hp
      cases h
      exact result_inv hi hp
    · cases h
  | handle peer =>
    obtain ⟨hsub, h⟩ := ite_none_right_eq_some.mp h
    split at h
    · rename_i m rest hto
      cases h
      cases m with
      | dataLog commit t => exact handleLog_inv hi hsub hto
      | versionRequest request t => exact handleRequest_inv hi hsub hto
    · cases h
  | arrive peer =>
    obtain ⟨hsub, h⟩ := ite_none_right_eq_some.mp h
    split at h
    · rename_i hfrom
      cases h
      exact arrive_inv hi hsub hfrom
    · cases h
  | dispatch =>
    dsimp only at h
    split at h
    · rename_i hq
      cases h
      exact dispatch_inv hi hq
    · cases h
  | upgrade peer version =>
    cases h
    exact ⟨fun t => (hi.threads t).frame rfl rfl rfl rfl rfl, hi.acknowledged⟩

theorem inv (h : Reach (step subscribers sync) (WaitSafe subscribers sync) init s) : Inv subscribers sync s :=
  h.inv (P := Inv subscribers sync) (init_inv subscribers sync) step_inv

end Invariant

/-! ## Acknowledgement -/

theorem publish_acknowledged (subscribers : List Nat) (sync : Nat → Bool) {s : St}
    (h : Reach (step subscribers sync) (WaitSafe subscribers sync) init s) : Acknowledged subscribers sync s :=
  (inv h).acknowledged

instance (subscribers : List Nat) (s : St) (t : Nat) : Decidable (Quiet subscribers s t) :=
  decidable_of_iff ((∀ p ∈ subscribers, (∀ m ∈ s.toPeer p, m.thread ≠ t) ∧ ∀ r ∈ s.fromPeer p, r.thread ≠ t)
      ∧ ∀ r ∈ s.messages, r.thread ≠ t)
    ⟨fun h => ⟨fun p hp m hm ht => (h.1 p hp).1 m hm ht, fun p hp r hr ht => (h.1 p hp).2 r hr ht, h.2⟩,
     fun h => ⟨fun p hp => ⟨h.toPeer p hp, h.fromPeer p hp⟩, h.messages⟩⟩

instance (subscribers : List Nat) (sync : Nat → Bool) (s : St) : ∀ e, Decidable (WaitSafe subscribers sync s e)
  | .publish t => inferInstanceAs (Decidable ((∀ p ∈ subscribers.tail, sync p = false)
      ∧ ((∃ p ∈ subscribers, sync p = true) → Quiet subscribers s t)))
  | .request t _ => inferInstanceAs (Decidable (Quiet subscribers s t))
  | .send _ | .resume _ | .finish _ | .sendRequest _ | .result _ | .handle _ | .arrive _ | .dispatch | .upgrade _ _ =>
    inferInstanceAs (Decidable True)

/-- Slave 1 is synchronous and slave 2 is not. Two threads publish; one of them asks for the version of slave 1 before. -/
def mixedTrace : List Ev :=
  [.upgrade 1 5, .request 7 1, .sendRequest 7, .handle 1, .arrive 1, .dispatch, .resume 7, .result 7, .publish 7, .publish 8,
   .send 8, .send 7, .handle 1, .handle 1, .arrive 1, .dispatch, .resume 8, .arrive 1, .dispatch, .resume 7, .send 7, .finish 7,
   .send 8, .finish 8]

theorem mixed_acknowledged : ∃ s, Reach (step [1, 2] (· == 1)) (WaitSafe [1, 2] (· == 1)) init s
    ∧ s.returned = [1, 0] ∧ s.answers = [(0, 5)] ∧ Acknowledged [1, 2] (· == 1) s := by
  obtain ⟨s, hs, hr, ha⟩ : ∃ s, exec (guarded (step [1, 2] (· == 1)) (WaitSafe [1, 2] (· == 1))) init mixedTrace = some s
      ∧ s.returned = [1, 0] ∧ s.answers = [(0, 5)] := exec_ends (by decide +kernel)
  have h := reach_of_exec_guarded _ hs
  exact ⟨s, h, hr, ha, publish_acknowledged [1, 2] (· == 1) h⟩

end DeepFabric.Distributed.Publish
