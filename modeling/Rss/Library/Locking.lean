import Mathlib.Data.List.Basic
import Rss.Library.Runs

/-! # Transactions under locks

A store shared by live transactions. A transaction reads what is committed, keeps every lock it
takes until it settles, and changes the store only when it commits; it may be rolled back at any
time. What a transaction has read stays true as long as no other transaction that could change
it can hold its locks too. -/

namespace Rss

/-- A store with its live transactions. -/
structure Sessions (σ τ : Type) where
  store : σ
  live : ℕ → Option τ

/-- What the transactions of a store can do: start, go on, commit; and what is done to the
store while none is live. Every action carries a label. -/
structure Locking (σ τ ℓ α : Type) where
  locks : τ → List ℓ
  Conflict : ℓ → ℓ → Prop
  Begin : σ → τ → α → Prop
  Advance : σ → τ → τ → α → Prop
  Commit : σ → τ → σ → α → Prop
  /-- A read that leaves nothing behind. -/
  Observe : σ → α → Prop
  Maintain : σ → σ → α → Prop
  rolledBack : α

namespace Sessions

variable {σ τ ℓ α : Type}

def setLive (y : Sessions σ τ) (i : ℕ) (t : Option τ) : Sessions σ τ :=
  { y with live := fun j => if j = i then t else y.live j }

@[simp] theorem setLive_store (y : Sessions σ τ) (i : ℕ) (t : Option τ) :
    (y.setLive i t).store = y.store := rfl

end Sessions

namespace Locking

variable {σ τ ℓ α : Type} (L : Locking σ τ ℓ α)

/-- No two locks of the transactions conflict. -/
def Compatible (t u : τ) : Prop :=
  ∀ k ∈ L.locks t, ∀ m ∈ L.locks u, ¬ L.Conflict k m ∧ ¬ L.Conflict m k

/-- The locks of the transaction are free, but for what it holds itself. -/
def Free (y : Sessions σ τ) (i : ℕ) (t : τ) : Prop :=
  ∀ j u, j ≠ i → y.live j = some u → L.Compatible t u

inductive Step : Sessions σ τ → α → Sessions σ τ → Prop where
  | begin {y : Sessions σ τ} {i : ℕ} {t : τ} {a : α} (fresh : y.live i = none)
      (free : L.Free y i t) (begins : L.Begin y.store t a) : Step y a (y.setLive i (some t))
  | advance {y : Sessions σ τ} {i : ℕ} {t u : τ} {a : α} (live : y.live i = some t)
      (free : L.Free y i u) (advances : L.Advance y.store t u a) :
      Step y a (y.setLive i (some u))
  | commit {y : Sessions σ τ} {i : ℕ} {t : τ} {store : σ} {a : α} (live : y.live i = some t)
      (commits : L.Commit y.store t store a) : Step y a { y.setLive i none with store }
  | rollback {y : Sessions σ τ} {i : ℕ} {t : τ} (live : y.live i = some t) :
      Step y L.rolledBack (y.setLive i none)
  | observe {y : Sessions σ τ} {a : α} (observes : L.Observe y.store a) : Step y a y
  | maintain {y : Sessions σ τ} {store : σ} {a : α} (idle : ∀ i, y.live i = none)
      (maintains : L.Maintain y.store store a) : Step y a { y with store }

/-- The store is sound, every live transaction knows the truth about it, and no two of them
hold conflicting locks. -/
structure Inv (I : σ → Prop) (V : σ → τ → Prop) (y : Sessions σ τ) : Prop where
  store : I y.store
  known : ∀ i t, y.live i = some t → V y.store t
  compatible : ∀ i j t u, i ≠ j → y.live i = some t → y.live j = some u → L.Compatible t u

variable {L}

theorem Compatible.symm {t u : τ} (h : L.Compatible t u) : L.Compatible u t :=
  fun k hk m hm => (h m hm k hk).symm

variable {I : σ → Prop} {V : σ → τ → Prop}

/-- A transaction that takes only free locks joins the others. -/
theorem Inv.join {y : Sessions σ τ} {i : ℕ} {t : τ} (h : L.Inv I V y) (free : L.Free y i t)
    (known : V y.store t) : L.Inv I V (y.setLive i (some t)) where
  store := h.store
  known := fun j u hj => by
      by_cases hi : j = i
      · obtain rfl : t = u := Option.some.inj ((if_pos hi).symm.trans hj)
        exact known
      · exact h.known j u ((if_neg hi).symm.trans hj)
  compatible := fun j k u v hne hj hk => by
      by_cases hi : j = i
      · obtain rfl : t = u := Option.some.inj ((if_pos hi).symm.trans hj)
        have hki : k ≠ i := fun h => hne (hi.trans h.symm)
        exact free k v hki ((if_neg hki).symm.trans hk)
      · have hj' : y.live j = some u := (if_neg hi).symm.trans hj
        by_cases hki : k = i
        · obtain rfl : t = v := Option.some.inj ((if_pos hki).symm.trans hk)
          exact (free j u hi hj').symm
        · exact h.compatible j k u v hne hj' ((if_neg hki).symm.trans hk)

theorem Inv.leave {y : Sessions σ τ} {i : ℕ} {store : σ} (h : L.Inv I V y) (hI : I store)
    (hV : ∀ j u, j ≠ i → y.live j = some u → V store u) :
    L.Inv I V { y.setLive i none with store } where
  store := hI
  known := fun j u hj => by
      by_cases hi : j = i
      · cases (if_pos hi).symm.trans hj
      · exact hV j u hi ((if_neg hi).symm.trans hj)
  compatible := fun j k u v hne hj hk => by
      by_cases hi : j = i
      · cases (if_pos hi).symm.trans hj
      · by_cases hki : k = i
        · cases (if_pos hki).symm.trans hk
        · exact h.compatible j k u v hne ((if_neg hi).symm.trans hj) ((if_neg hki).symm.trans hk)

/-- What the actions must keep for the invariant to hold of every run. -/
structure Keeps (L : Locking σ τ ℓ α) (I : σ → Prop) (V : σ → τ → Prop) : Prop where
  begin : ∀ {s t a}, I s → L.Begin s t a → V s t
  advance : ∀ {s t u a}, I s → V s t → L.Advance s t u a → V s u
  commit : ∀ {s t s' a}, I s → V s t → L.Commit s t s' a → I s'
  stable : ∀ {s t u s' a}, I s → V s t → V s u → L.Compatible t u → L.Commit s t s' a → V s' u
  maintain : ∀ {s s' a}, I s → L.Maintain s s' a → I s'

theorem Inv.step (hk : Keeps L I V) {y y' : Sessions σ τ} {a : α} (h : L.Inv I V y)
    (hstep : L.Step y a y') : L.Inv I V y' := by
  cases hstep with
  | begin fresh free begins => exact h.join free (hk.begin h.store begins)
  | advance live free advances =>
      exact h.join free (hk.advance h.store (h.known _ _ live) advances)
  | commit live commits =>
      have hown := h.known _ _ live
      refine h.leave (hk.commit h.store hown commits) (fun j u hj hu => ?_)
      exact hk.stable h.store hown (h.known j u hu)
        (h.compatible _ j _ u (Ne.symm hj) live hu) commits
  | rollback live => exact h.leave h.store (fun j u _ hu => h.known j u hu)
  | observe observes => exact h
  | maintain idle maintains =>
      refine ⟨hk.maintain h.store maintains, fun i t hi => ?_, fun i j t u _ hi => ?_⟩
      · cases (idle i).symm.trans hi
      · cases (idle i).symm.trans hi

theorem inv_of_runs (hk : Keeps L I V) {y : Sessions σ τ} {s₀ : σ} {labels : List α} (h₀ : I s₀)
    (h : Runs L.Step ⟨s₀, fun _ => none⟩ labels y) : L.Inv I V y := by
  induction h with
  | nil => exact ⟨h₀, (fun _ _ h => nomatch h), (fun _ _ _ _ _ h => nomatch h)⟩
  | snoc _ hstep ih => exact ih.step hk hstep

/-- All a step does to the store. -/
theorem Step.store_cases {y y' : Sessions σ τ} {a : α} (h : L.Step y a y') :
    y'.store = y.store ∨
      (∃ i t, y.live i = some t ∧ L.Commit y.store t y'.store a) ∨
      L.Maintain y.store y'.store a := by
  cases h with
  | begin => exact .inl rfl
  | advance => exact .inl rfl
  | commit live commits => exact .inr (.inl ⟨_, _, live, commits⟩)
  | rollback => exact .inl rfl
  | observe => exact .inl rfl
  | maintain idle maintains => exact .inr (.inr maintains)

/-! ### One session alone -/

end Locking

namespace Sessions

variable {σ τ ℓ α : Type}

/-- One session, at this transaction if it is in one. -/
def alone (s : σ) (t : Option τ) : Sessions σ τ := ⟨s, fun j => if j = 0 then t else none⟩

theorem alone_none (s : σ) : (alone s none : Sessions σ τ) = ⟨s, fun _ => none⟩ := by
  simp [alone]

theorem setLive_alone (s : σ) (t u : Option τ) : (alone s t).setLive 0 u = alone s u := by
  simp only [setLive, alone, mk.injEq, true_and]
  funext j
  by_cases hj : j = 0 <;> simp [hj]

end Sessions

namespace Locking

open Sessions

variable {σ τ ℓ α : Type} {L : Locking σ τ ℓ α} {s s' : σ} {t u : τ} {a : α}

theorem free_alone (x : Option τ) : L.Free (alone s x) 0 t := by
  intro j v hj h
  cases (if_neg hj).symm.trans h

theorem Step.begin_alone (h : L.Begin s t a) : L.Step (alone s none) a (alone s (some t)) := by
  rw [← setLive_alone s none (some t)]
  exact .begin rfl (free_alone none) h

theorem Step.advance_alone (h : L.Advance s t u a) :
    L.Step (alone s (some t)) a (alone s (some u)) := by
  rw [← setLive_alone s (some t) (some u)]
  exact .advance rfl (free_alone (some t)) h

theorem Step.commit_alone (h : L.Commit s t s' a) :
    L.Step (alone s (some t)) a (alone s' none) := by
  have hstep : L.Step (alone s (some t)) a
      { (alone s (some t)).setLive 0 none with store := s' } := .commit rfl h
  rw [setLive_alone] at hstep
  exact hstep

theorem Step.maintain_alone (h : L.Maintain s s' a) :
    L.Step (alone s none) a (alone s' none) :=
  .maintain (fun i => by simp [alone]) h

end Locking

end Rss
