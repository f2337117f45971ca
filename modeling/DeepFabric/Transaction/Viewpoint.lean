/-
  DeepFabric.Transaction.Viewpoint — the snapshot floor `s_viewpointMinimum`
  (core/Transaction.h: begin, getNextViewpoint, minimum, viewing, setDirty).

  `begin` of a transaction without a viewpoint draws the next number of the 32-bit
  `s_viewpointSequence` under the transaction lock, which also sets a floor of 0 to it, and
  stores it in the object after the lock is released: two steps, `draw` and `store`. A begin
  of a transaction that has one only raises the level. `minimum` recomputes the floor, under
  the lock, from the viewpoints stored in the live objects. A level-0 commit or rollback
  clears the viewpoint and the level; one at another level only sets the level. A transaction
  has begun and not ended exactly when its level is not -1: begin's guard keeps the 16-bit
  counter from coming around to it.

  Two things go wrong. A `minimum` between a draw and its store does not see the drawn
  viewpoint: the floor becomes 0, or the viewpoint of a later transaction. And the sequence
  wraps: it hands out the reserved 0, and then numbers below the floor. `FloorSafe` says, of
  the state before a step, that neither happens.

  - `minimum_misses_a_drawn_viewpoint`: an open transaction with no floor under it.
  - `step_inv` / `inv`: on the other runs the floor is under every stored and every drawn
    viewpoint.
  - `floor_under_open`: on these runs every transaction that has begun and not ended has a
    non-zero viewpoint at or above a non-zero floor, so every limit at or above it is viewed.
-/
import Mathlib.Algebra.Group.Nat.Defs
import Mathlib.Data.List.Basic
import DeepFabric.Lib.Run
import DeepFabric.Transaction.Table

namespace DeepFabric.Transaction.Viewpoint

open DeepFabric.Lib.Run Option Function

/-- The fields of a transaction object that viewpoints look at. -/
structure Tx where
  viewpoint : Nat
  level : Int
  dirty : Bool
  /-- The local variable of a begin between its draw and its store. -/
  drawn : Option Nat

structure St where
  table : Table Tx
  viewpointMinimum : Nat
  viewpointSequence : Nat

def init : St := ⟨.empty, 0, 0⟩

/-! ## The operations -/

def viewing (s : St) (viewlimit : Nat) : Bool :=
  viewlimit ≠ 0 && s.viewpointMinimum ≠ 0 && viewlimit ≥ s.viewpointMinimum

/-- `++s_viewpointSequence`. -/
def nextViewpoint (s : St) : Nat := (s.viewpointSequence + 1) % 2 ^ 32

/-- getNextViewpoint; what it returns is `nextViewpoint s`. -/
def drawViewpoint (s : St) : St :=
  { s with
    viewpointSequence := nextViewpoint s
    viewpointMinimum := if s.viewpointMinimum = 0 then nextViewpoint s else s.viewpointMinimum }

/-- A 16-bit value after `+ 1` or `- 1`. -/
def wrap16 (n : Int) : Int := if n = 32768 then -32768 else if n = -32769 then 32767 else n

/-- `((m_level + 1) == -1) ? -1 : ++m_level`, which leaves -2 where it is. -/
def raiseLevel (level : Int) : Int := if level + 1 = -1 then level else wrap16 (level + 1)

/-- One turn of minimum's scan. -/
def minimumTurn (t : Table Tx) (viewpoint i : Nat) : Nat :=
  match t.transactions i with
  | none => viewpoint
  | some tx =>
    if tx.viewpoint = 0 then viewpoint
    else if viewpoint = 0 ∨ viewpoint > tx.viewpoint then tx.viewpoint
    else viewpoint

def minimum (s : St) : St := { s with viewpointMinimum := s.table.scan.foldl (minimumTurn s.table) 0 }

inductive Ev where
  | create
  /-- begin up to the store: draw, or raise the level of a transaction that has a viewpoint. -/
  | begin (id : Nat)
  | store (id : Nat)
  /-- A write of the transaction: setDirty(true). -/
  | touch (id : Nat)
  /-- commit(level) or rollback(level). -/
  | finish (id : Nat) (level : Int)
  | minimum
  | destroy (id : Nat)
  deriving Repr

def begin (s : St) (id : Nat) (tx : Tx) : St :=
  if tx.viewpoint = 0 then
    { drawViewpoint s with table := s.table.set id { tx with drawn := some (nextViewpoint s) } }
  else { s with table := s.table.set id { tx with level := raiseLevel tx.level } }

def store (s : St) (id : Nat) (tx : Tx) (v : Nat) : St :=
  { s with table := s.table.set id { tx with viewpoint := v, level := raiseLevel tx.level, drawn := none } }

/-- setDirty(false) at level 0, `m_level = level - 1` otherwise. -/
def finish (s : St) (id : Nat) (tx : Tx) (level : Int) : St :=
  if level = 0 then { s with table := s.table.set id { tx with viewpoint := 0, level := -1, dirty := false } }
  else { s with table := s.table.set id { tx with level := wrap16 (level - 1) } }

/-- A transaction is used by one thread: inside a begin it does nothing else. A commit or rollback at a level other
    than 0 is of a begun transaction. -/
def step (s : St) : Ev → Option St
  | .create => (s.table.create fun _ => ⟨0, -1, false, none⟩).map fun p => { s with table := p.2 }
  | .begin id =>
    match s.table.transactions id with
    | none => none
    | some tx => if tx.drawn = none then some (begin s id tx) else none
  | .store id =>
    match s.table.transactions id with
    | none => none
    | some tx => tx.drawn.map (store s id tx)
  | .touch id =>
    match s.table.transactions id with
    | none => none
    | some tx => if tx.drawn = none then some { s with table := s.table.set id { tx with dirty := true } } else none
  | .finish id level =>
    match s.table.transactions id with
    | none => none
    | some tx =>
      if tx.drawn = none ∧ (level = 0 ∨ tx.level ≠ -1 ∧ -32768 ≤ level ∧ level ≤ 32767) then some (finish s id tx level)
      else none
  | .minimum => some (minimum s)
  | .destroy id =>
    match s.table.transactions id with
    | none => none
    | some tx => if tx.drawn = none ∧ tx.dirty = false then some { s with table := s.table.destroy id } else none

/-- The condition on a step, in the state before it. A draw hands out a number other than 0 that is not below the
    floor; at a `minimum`, every begin between its draw and its store is covered by a stored viewpoint. -/
def FloorSafe (s : St) : Ev → Prop
  | .begin id => ∀ tx ∈ s.table.transactions id, tx.viewpoint = 0 →
      nextViewpoint s ≠ 0 ∧ s.viewpointMinimum ≤ nextViewpoint s
  | .minimum => ∀ i ∈ s.table.scan, ∀ tx ∈ s.table.transactions i, ∀ v ∈ tx.drawn,
      ∃ j ∈ s.table.scan, ∃ ty ∈ s.table.transactions j, ty.viewpoint ≠ 0 ∧ ty.viewpoint ≤ v
  | _ => True

instance (s : St) : (e : Ev) → Decidable (FloorSafe s e)
  | .begin id => inferInstanceAs (Decidable (∀ tx ∈ s.table.transactions id, _))
  | .minimum => inferInstanceAs (Decidable (∀ i ∈ s.table.scan, _))
  | .create => .isTrue trivial
  | .store _ => .isTrue trivial
  | .touch _ => .isTrue trivial
  | .finish _ _ => .isTrue trivial
  | .destroy _ => .isTrue trivial

/-- What the floor promises a transaction that has begun and not ended. -/
def Floored (s : St) : Prop :=
  ∀ id tx, s.table.transactions id = some tx → tx.level ≠ -1 →
    tx.viewpoint ≠ 0 ∧ s.viewpointMinimum ≠ 0 ∧ s.viewpointMinimum ≤ tx.viewpoint ∧
    ∀ limit, limit ≠ 0 → tx.viewpoint ≤ limit → viewing s limit = true

/-! ## Begun means a level other than -1 -/

theorem raiseLevel_ne (l : Int) : raiseLevel l ≠ -1 := by
  unfold raiseLevel wrap16
  split_ifs <;> omega

theorem wrap16_pred_ne {level : Int} (h : level ≠ 0) (hb : -32768 ≤ level ∧ level ≤ 32767) : wrap16 (level - 1) ≠ -1 := by
  unfold wrap16
  split_ifs <;> omega

variable {s : St} {id : Nat} {tx : Tx}

/-- Begun with the viewpoint `v`, and not ended. -/
def Begun (s : St) (id v : Nat) : Prop :=
  ∃ tx, s.table.transactions id = some tx ∧ tx.level ≠ -1 ∧ tx.viewpoint = v ∧ tx.drawn = none

/-- A begun transaction leaves that state only by its level-0 end or by being destroyed. -/
theorem step_begun {s' : St} {e : Ev} {v : Nat} (hv : v ≠ 0) (h : Begun s id v) (hs : step s e = some s') (hf : e ≠ .finish id 0)
    (hd : e ≠ .destroy id) : Begun s' id v := by
  obtain ⟨tx, htx, hl, rfl, hn⟩ := h
  -- of another transaction's object nothing changes; of the own one the level only as the two lemmas above say
  have hset : ∀ {t : St} {j : Nat} {ty : Tx} (ty' : Tx), s.table.transactions j = some ty → t.table = s.table.set j ty' →
      (j = id → ty'.level ≠ -1 ∧ ty'.viewpoint = tx.viewpoint ∧ ty'.drawn = none) → Begun t id tx.viewpoint := by
    intro t j ty ty' hj ht hlev
    unfold Begun
    rw [ht, Table.set_transactions hj]
    by_cases e : id = j
    · exact ⟨ty', by simp [e], hlev e.symm⟩
    · exact ⟨tx, by simpa [update_of_ne e] using htx, hl, rfl, hn⟩
  cases e with
  | create =>
    obtain ⟨⟨i, t⟩, hc, rfl⟩ := map_eq_some_iff.mp hs
    obtain ⟨hfree, ht⟩ := Table.create_eq_some hc
    have hne : id ≠ i := fun e => by subst e; rw [hfree] at htx; cases htx
    exact ⟨tx, by simpa [ht, update_of_ne hne] using htx, hl, rfl, hn⟩
  | minimum => cases hs; exact ⟨tx, htx, hl, rfl, hn⟩
  | begin j =>
    simp only [step] at hs
    split at hs
    · cases hs
    · rename_i ty hj
      obtain ⟨-, ⟨⟩⟩ := ite_none_right_eq_some.mp hs
      unfold begin
      split
      · rename_i h0
        refine hset { ty with drawn := some (nextViewpoint s) } hj rfl fun e => ?_
        subst e; rw [htx] at hj; cases hj; exact absurd h0 hv
      · refine hset { ty with level := raiseLevel ty.level } hj rfl fun e => ⟨raiseLevel_ne _, ?_⟩
        subst e; rw [htx] at hj; cases hj; exact ⟨rfl, hn⟩
  | store j =>
    simp only [step] at hs
    split at hs
    · cases hs
    · rename_i ty hj
      obtain ⟨v, hdrawn, rfl⟩ := map_eq_some_iff.mp hs
      refine hset { ty with viewpoint := v, level := raiseLevel ty.level, drawn := none } hj rfl fun e => ?_
      subst e; rw [htx] at hj; cases hj; rw [hn] at hdrawn; cases hdrawn
  | touch j =>
    simp only [step] at hs
    split at hs
    · cases hs
    · rename_i ty hj
      obtain ⟨-, ⟨⟩⟩ := ite_none_right_eq_some.mp hs
      refine hset { ty with dirty := true } hj rfl fun e => ?_
      subst e; rw [htx] at hj; cases hj; exact ⟨hl, rfl, hn⟩
  | finish j level =>
    simp only [step] at hs
    split at hs
    · cases hs
    · rename_i ty hj
      obtain ⟨⟨-, hg⟩, ⟨⟩⟩ := ite_none_right_eq_some.mp hs
      unfold finish
      split
      · rename_i h0
        exact hset { ty with viewpoint := 0, level := -1, dirty := false } hj rfl fun e => by subst e h0; exact absurd rfl hf
      · rename_i h0
        refine hset { ty with level := wrap16 (level - 1) } hj rfl fun e => ⟨wrap16_pred_ne h0 (hg.resolve_left h0).2, ?_⟩
        subst e; rw [htx] at hj; cases hj; exact ⟨rfl, hn⟩
  | destroy j =>
    simp only [step] at hs
    split at hs
    · cases hs
    · obtain ⟨-, ⟨⟩⟩ := ite_none_right_eq_some.mp hs
      have hne : id ≠ j := fun e => by subst e; exact hd rfl
      exact ⟨tx, by simpa [update_of_ne hne] using htx, hl, rfl, hn⟩

/-- A transaction keeps the viewpoint it has begun with, whatever the others do. -/
theorem begun_until_end {s' : St} {v : Nat} (hv : v ≠ 0) (h : Begun s id v) {es : List Ev} (hs : exec step s es = some s')
    (hes : ∀ e ∈ es, e ≠ .finish id 0 ∧ e ≠ .destroy id) : Begun s' id v := by
  induction es generalizing s with
  | nil => cases hs; exact h
  | cons e es ih =>
    obtain ⟨s1, h1, h2⟩ := bind_eq_some_iff.mp hs
    obtain ⟨he, hes⟩ := List.forall_mem_cons.mp hes
    exact ih (step_begun hv h h1 he.1 he.2) h2 hes

/-- Begun once more, and ended at the inner level. -/
theorem begun_until_end_nested : ∃ s s', exec step init [.create, .begin 1, .store 1] = some s ∧
    exec step s [.begin 1, .minimum, .finish 1 1] = some s' ∧ Begun s' 1 1 := by
  obtain ⟨s, hs, hb, hrun⟩ : ∃ s, exec step init [.create, .begin 1, .store 1] = some s ∧ Begun s 1 1 ∧
      (exec step s [.begin 1, .minimum, .finish 1 1]).isSome := ⟨_, rfl, ⟨_, rfl, by decide, rfl, rfl⟩, rfl⟩
  obtain ⟨s', hs'⟩ := isSome_iff_exists.mp hrun
  exact ⟨s, s', hs, hs', begun_until_end (by decide) hb hs' (by simp)⟩
/-! ## The defect -/

/-- The floor is recomputed between the draw and the store of the only transaction. -/
def drawnTrace : List Ev := [.create, .begin 1, .minimum, .store 1]

theorem minimum_misses_a_drawn_viewpoint : ∃ s, Reach step Free init s ∧ ¬ Floored s := by
  obtain ⟨s, hs, tx, htx, hl, hm⟩ : ∃ s, exec step init drawnTrace = some s ∧ ∃ tx, s.table.transactions 1 = some tx ∧
      tx.level ≠ -1 ∧ s.viewpointMinimum = 0 := ⟨_, rfl, _, rfl, by decide, rfl⟩
  exact ⟨s, reach_of_exec _ hs, fun h => (h 1 tx htx hl).2.1 hm⟩

/-! ## The invariant -/

/-- A floor of the number `v`. -/
def Under (s : St) (v : Nat) : Prop := s.viewpointMinimum ≠ 0 ∧ s.viewpointMinimum ≤ v

structure TxOk (s : St) (tx : Tx) : Prop where
  stored : tx.viewpoint ≠ 0 → Under s tx.viewpoint
  drawn : ∀ v, tx.drawn = some v → v ≠ 0 ∧ Under s v
  begun : tx.level ≠ -1 → tx.viewpoint ≠ 0

def Inv (s : St) : Prop := ∀ id tx, s.table.transactions id = some tx → TxOk s tx

/-- Replacing one object; the floor and the others stay. -/
theorem set_inv (hi : Inv s) {tx' : Tx} (h : s.table.transactions id = some tx)
    (h' : TxOk s tx') : Inv { s with table := s.table.set id tx' } := by
  intro j ty hj
  simp only [Table.set_transactions h] at hj
  by_cases e : j = id
  · subst e
    simp only [update_self, Option.some.injEq] at hj
    subst hj
    exact ⟨h'.stored, h'.drawn, h'.begun⟩
  · have hy := hi j ty (by simpa [update_of_ne e] using hj)
    exact ⟨hy.stored, hy.drawn, hy.begun⟩

/-- A draw either leaves the floor, or there was none and so nothing stood on it. -/
theorem drawViewpoint_inv (hi : Inv s) : Inv (drawViewpoint s) := by
  intro j ty hj
  have hy := hi j ty hj
  by_cases h0 : s.viewpointMinimum = 0
  · exact ⟨fun h => absurd h0 (hy.stored h).1, fun v h => absurd h0 (hy.drawn v h).2.1, hy.begun⟩
  · have hmin : (drawViewpoint s).viewpointMinimum = s.viewpointMinimum := if_neg h0
    have hu : ∀ v, Under s v → Under (drawViewpoint s) v := fun v h => by rw [Under, hmin]; exact h
    exact ⟨fun h => hu _ (hy.stored h), fun v h => ⟨(hy.drawn v h).1, hu v (hy.drawn v h).2⟩, hy.begun⟩

theorem drawViewpoint_under (h : nextViewpoint s ≠ 0 ∧ s.viewpointMinimum ≤ nextViewpoint s) :
    Under (drawViewpoint s) (nextViewpoint s) := by
  simp only [Under, drawViewpoint]
  split
  · exact ⟨h.1, Nat.le_refl _⟩
  · exact ⟨by assumption, h.2⟩

theorem begin_inv (hi : Inv s) (htx : s.table.transactions id = some tx)
    (hok : FloorSafe s (.begin id)) : Inv (begin s id tx) := by
  have ht := hi id tx htx
  unfold begin
  split
  · rename_i h0
    have hd := drawViewpoint_inv hi id tx htx
    refine set_inv (s := drawViewpoint s) (drawViewpoint_inv hi) htx ⟨hd.stored, fun v hv => ?_, hd.begun⟩
    cases hv
    exact ⟨(hok tx htx h0).1, drawViewpoint_under (hok tx htx h0)⟩
  · rename_i h0
    exact set_inv hi htx ⟨ht.stored, ht.drawn, fun _ => h0⟩

variable {v : Nat}

theorem store_inv (hi : Inv s) (htx : s.table.transactions id = some tx)
    (hv : tx.drawn = some v) : Inv (store s id tx v) := by
  obtain ⟨h0, hu⟩ := (hi id tx htx).drawn v hv
  exact set_inv hi htx ⟨fun _ => hu, nofun, fun _ => h0⟩

theorem finish_inv (hi : Inv s) {level : Int} (htx : s.table.transactions id = some tx)
    (hg : level = 0 ∨ tx.level ≠ -1 ∧ -32768 ≤ level ∧ level ≤ 32767) : Inv (finish s id tx level) := by
  have ht := hi id tx htx
  unfold finish
  split
  · exact set_inv hi htx ⟨fun h => absurd rfl h, ht.drawn, fun h => absurd rfl h⟩
  · rename_i hl
    obtain ⟨hbegun, -⟩ := hg.resolve_left hl
    exact set_inv hi htx ⟨ht.stored, ht.drawn, fun _ => ht.begun hbegun⟩

/-! ### The scan -/

variable {i : Nat}

theorem minimumTurn_keeps (t : Table Tx) (h : v ≠ 0) :
    minimumTurn t v i ≠ 0 ∧ minimumTurn t v i ≤ v := by
  unfold minimumTurn
  split
  · exact ⟨h, Nat.le_refl _⟩
  · split_ifs <;> omega

theorem minimumTurn_meets {t : Table Tx} (h : t.transactions i = some tx) (h0 : tx.viewpoint ≠ 0) :
    minimumTurn t v i ≠ 0 ∧ minimumTurn t v i ≤ tx.viewpoint := by
  unfold minimumTurn
  simp only [h, h0, if_false]
  split_ifs <;> omega

theorem foldl_minimum_keeps (t : Table Tx) (is : List Nat) (h : v ≠ 0) :
    is.foldl (minimumTurn t) v ≠ 0 ∧ is.foldl (minimumTurn t) v ≤ v := by
  induction is generalizing v with
  | nil => exact ⟨h, Nat.le_refl _⟩
  | cons i is ih =>
    obtain ⟨h1, h2⟩ := minimumTurn_keeps t (i := i) h
    exact ⟨(ih h1).1, Nat.le_trans (ih h1).2 h2⟩

theorem foldl_minimum_meets {t : Table Tx} {is : List Nat} (hi : i ∈ is)
    (h : t.transactions i = some tx) (h0 : tx.viewpoint ≠ 0) (v : Nat) :
    is.foldl (minimumTurn t) v ≠ 0 ∧ is.foldl (minimumTurn t) v ≤ tx.viewpoint := by
  induction is generalizing v with
  | nil => cases hi
  | cons j is ih =>
    rcases List.mem_cons.mp hi with rfl | hi
    · obtain ⟨h1, h2⟩ := minimumTurn_meets (v := v) h h0
      obtain ⟨h3, h4⟩ := foldl_minimum_keeps t is h1
      exact ⟨h3, Nat.le_trans h4 h2⟩
    · exact ih hi _

theorem minimum_under (h : s.table.transactions i = some tx) (h0 : tx.viewpoint ≠ 0) :
    Under (minimum s) tx.viewpoint := foldl_minimum_meets (Table.mem_scan h) h h0 0

theorem minimum_inv (hi : Inv s) (hok : FloorSafe s .minimum) : Inv (minimum s) := by
  intro i tx htx
  refine ⟨minimum_under htx, fun v hv => ⟨((hi i tx htx).drawn v hv).1, ?_⟩, (hi i tx htx).begun⟩
  obtain ⟨j, -, ty, hy, h0, hle⟩ := hok i (Table.mem_scan htx) tx htx v hv
  obtain ⟨h1, h2⟩ := minimum_under hy h0
  exact ⟨h1, Nat.le_trans h2 hle⟩

theorem step_inv {s' : St} {e : Ev} (hi : Inv s) (hok : FloorSafe s e) (hs : step s e = some s') : Inv s' := by
  cases e with
  | create =>
    obtain ⟨⟨i, t⟩, hc, rfl⟩ := map_eq_some_iff.mp hs
    obtain ⟨-, ht⟩ := Table.create_eq_some hc
    intro j ty hj
    simp only [ht] at hj
    by_cases e : j = i
    · subst e
      simp only [update_self, Option.some.injEq] at hj
      subst hj
      exact ⟨fun h => absurd rfl h, nofun, fun h => absurd rfl h⟩
    · have hy := hi j ty (by simpa [update_of_ne e] using hj)
      exact ⟨hy.stored, hy.drawn, hy.begun⟩
  | begin id =>
    simp only [step] at hs
    split at hs
    · cases hs
    · rename_i tx htx
      obtain ⟨-, ⟨⟩⟩ := ite_none_right_eq_some.mp hs
      exact begin_inv hi htx hok
  | store id =>
    simp only [step] at hs
    split at hs
    · cases hs
    · rename_i tx htx
      obtain ⟨v, hv, rfl⟩ := map_eq_some_iff.mp hs
      exact store_inv hi htx hv
  | touch id =>
    simp only [step] at hs
    split at hs
    · cases hs
    · rename_i tx htx
      obtain ⟨-, ⟨⟩⟩ := ite_none_right_eq_some.mp hs
      have ht := hi id tx htx
      exact set_inv hi htx ⟨ht.stored, ht.drawn, ht.begun⟩
  | finish id level =>
    simp only [step] at hs
    split at hs
    · cases hs
    · rename_i tx htx
      obtain ⟨⟨-, hg⟩, ⟨⟩⟩ := ite_none_right_eq_some.mp hs
      exact finish_inv hi htx hg
  | minimum =>
    cases hs
    exact minimum_inv hi hok
  | destroy id =>
    simp only [step] at hs
    split at hs
    · cases hs
    · obtain ⟨-, ⟨⟩⟩ := ite_none_right_eq_some.mp hs
      intro j ty hj
      have hne : j ≠ id := fun e => by subst e; simp at hj
      have hy := hi j ty (by simpa [update_of_ne hne] using hj)
      exact ⟨hy.stored, hy.drawn, hy.begun⟩

theorem inv (h : Reach step FloorSafe init s) : Inv s :=
  h.inv (P := Inv) (fun id tx h => by simp [init, Table.empty] at h) step_inv

/-! ## The floor -/

theorem viewing_of_under {limit : Nat} (h : Under s v) (h0 : limit ≠ 0) (hle : v ≤ limit) :
    viewing s limit = true := by
  have hle' := Nat.le_trans h.2 hle
  simp [viewing, h0, h.1, hle']

theorem floor_under_open {s : St} (h : Reach step FloorSafe init s) : Floored s := by
  intro id tx htx hl
  have ht := inv h id tx htx
  have h0 := ht.begun hl
  have hu := ht.stored h0
  exact ⟨h0, hu.1, hu.2, fun limit hl0 hle => viewing_of_under hu hl0 hle⟩

/-- The second begin is between its draw and its store at a `minimum`, with the first one's viewpoint stored. -/
def coveredTrace : List Ev :=
  [.create, .create, .begin 1, .store 1, .begin 2, .minimum, .store 2, .begin 2, .finish 1 0, .minimum, .finish 2 1]

theorem covered_floored : ∃ s, exec (guarded step FloorSafe) init coveredTrace = some s ∧ Floored s ∧
    s.viewpointMinimum = 2 := by
  refine ⟨_, rfl, ?_, rfl⟩
  exact floor_under_open (reach_of_exec_guarded coveredTrace rfl)

end DeepFabric.Transaction.Viewpoint
