import Rss.Library.Runs
import Rss.Model.Messaging.Inbox

/-! # One effect per inbox row

Every answer a transaction can give is justified by the committed row, and stays so until the
transaction ends because a transaction that answered for the row excludes the others. -/

namespace Rss.Messaging.Inbox

open Rss.Sql

/-! ### Answers -/

/-- A reply and the change staged with it, as the committed row justifies them. -/
inductive Open.Answers (o : Open) (row : Option Row) : Reply → Prop where
  | acquired {contract : String} {ttl : ℤ} {token : Uuid} {next : Row}
      (work : o.work = .claim contract ttl) (vacant : ∀ r ∈ row, r.receipt = none)
      (staged : o.staged = some (some next)) (fresh : next.receipt = none)
      (effect : o.effect = false) : Answers o row (.acquired token)
  | refused {contract : String} {ttl : ℤ} {r : Row} (work : o.work = .claim contract ttl)
      (present : row = some r) (same : r.contract = contract) (locked : o.locked = true)
      (staged : o.staged = none) (effect : o.effect = false) :
      Answers o row (match r.receipt with | some receipt => .terminal receipt | none => .inProgress)
  | held {c : Claim} {ttl : ℤ} {r : Row} {until' remaining : ℤ} (work : o.work = .extend c ttl)
      (present : row = some r) (token : r.leaseToken = c.token) (vacant : r.receipt = none)
      (staged : o.staged = some (some { r with leaseUntil := until' }))
      (effect : o.effect = false) : Answers o row (.held remaining)
  | lost {c : Claim} {ttl : ℤ} (work : o.work = .extend c ttl) (staged : o.staged = none)
      (effect : o.effect = false) : Answers o row .lost
  | released {c : Claim} {r : Row} (work : o.work = .release c) (present : row = some r)
      (token : r.leaseToken = c.token) (vacant : r.receipt = none)
      (staged : o.staged = some none) (effect : o.effect = false) : Answers o row .released
  | committed {c : Claim} {fingerprint : Digest} {r : Row} {d : Disposition}
      (work : o.work = .execute c fingerprint) (present : row = some r)
      (token : r.leaseToken = c.token) (vacant : r.receipt = none)
      (staged : o.staged = some (some { r with receipt := some ⟨fingerprint, d⟩ }))
      (effect : o.effect = decide (d = .succeeded)) : Answers o row (.committed d)

/-- A transaction that does not hold the row answers alike for any row. -/
theorem Open.Answers.of_not_holds {o : Open} {row row' : Option Row} {reply : Reply}
    (h : o.Answers row reply) (hfree : o.holds = false) : o.Answers row' reply := by
  rw [Open.holds, Bool.or_eq_false_iff, Option.isSome_eq_false_iff] at hfree
  cases h with
  | lost work staged effect => exact .lost work staged effect
  | refused _ _ _ locked _ _ => simp [locked] at hfree
  | acquired _ _ staged _ _ => simp [staged] at hfree
  | held _ _ _ _ staged _ => simp [staged] at hfree
  | released _ _ _ _ staged _ => simp [staged] at hfree
  | committed _ _ _ _ staged _ => simp [staged] at hfree

/-- What is known of an open transaction before and after its writing statement. -/
structure Open.Sound (o : Open) (row : Option Row) : Prop where
  unwritten : o.phase ≠ .written → o.staged = none ∧ o.reply = none
  unanswered : o.reply = none → o.staged = none
  executing : o.effect = true ∨ o.phase = .checked → ∃ c fingerprint, o.work = .execute c fingerprint
  effect_ready : o.phase = .ready ∨ o.phase = .checked → o.effect = false
  effect_applied : ∀ d, o.phase = .applied d ∨ o.phase = .locked (some d) →
    o.effect = decide (d = .succeeded)
  answers : ∀ reply, o.reply = some reply → o.Answers row reply

theorem Open.Sound.of_not_holds {o : Open} {row row' : Option Row} (h : o.Sound row)
    (hfree : o.holds = false) : o.Sound row' :=
  { h with answers := fun reply hr => (h.answers reply hr).of_not_holds hfree }

theorem Open.Sound.start (work : Work) (binding : Binding) (row : Option Row) :
    (Open.start work binding).Sound row where
  unwritten _ := ⟨rfl, rfl⟩
  unanswered _ := rfl
  executing h := by simp [Open.start] at h
  effect_ready _ := rfl
  effect_applied d h := by simp [Open.start] at h
  answers reply h := by simp [Open.start] at h

theorem Open.Sound.check {o : Open} {row : Option Row} {c : Claim} {fingerprint : Digest}
    (h : o.Sound row) (hwork : o.work = .execute c fingerprint) (hready : o.phase = .ready) :
    ({ o with phase := .checked } : Open).Sound row := by
  obtain ⟨hstaged, hreply⟩ := h.unwritten (by simp [hready])
  exact
    { unwritten := fun _ => ⟨hstaged, hreply⟩
      unanswered := fun _ => hstaged
      executing := fun _ => ⟨c, fingerprint, hwork⟩
      effect_ready := fun _ => h.effect_ready (.inl hready)
      effect_applied := fun d hd => by simp at hd
      answers := fun reply hr => by simp [hreply] at hr }

/-- Only an execution is ever checked, so only its handler's effect is applied. -/
theorem Open.Sound.apply {o : Open} {row : Option Row} (h : o.Sound row) (d : Disposition)
    (hchecked : o.phase = .checked) : (o.apply d).Sound row := by
  obtain ⟨hstaged, hreply⟩ := h.unwritten (by simp [hchecked])
  exact
    { unwritten := fun _ => ⟨hstaged, hreply⟩
      unanswered := fun _ => hstaged
      executing := fun _ => h.executing (.inr hchecked)
      effect_ready := fun hd => by simp [Open.apply] at hd
      effect_applied := fun d' hd => by
        obtain rfl : d = d' := by simpa [Open.apply] using hd
        rfl
      answers := fun reply hr => by simp [Open.apply, hreply] at hr }

theorem Open.Sound.effect_of_not_execute {o : Open} {row : Option Row} (h : o.Sound row)
    (hwork : ∀ c fingerprint, o.work ≠ .execute c fingerprint) : o.effect = false := by
  by_contra he
  obtain ⟨c, fingerprint, hexecute⟩ := h.executing (.inl (by simpa using he))
  exact hwork c fingerprint hexecute

/-- The lock is taken when an extension or release begins, and after the handler of an execution. -/
theorem Open.lock_eq_some {o o' : Open} {row : Option Row} (h : o.lock row = some o') :
    (o.phase = .ready ∧ o' = { o with phase := .locked none, locked := row.isSome }) ∨
      ∃ d, o.phase = .applied d ∧
        o' = { o with phase := .locked (some d), locked := row.isSome } := by
  revert h
  fun_cases Open.lock o row <;> intro h
  · exact .inl ⟨‹_›, (Option.some.inj h).symm⟩
  · exact .inl ⟨‹_›, (Option.some.inj h).symm⟩
  · exact .inr ⟨_, ‹_›, (Option.some.inj h).symm⟩
  · cases h

theorem Open.Sound.lock {o o' : Open} {row : Option Row} (h : o.Sound row)
    (hlock : o.lock row = some o') : o'.Sound row := by
  rcases Open.lock_eq_some hlock with ⟨hready, rfl⟩ | ⟨d, happlied, rfl⟩
  · obtain ⟨hstaged, hreply⟩ := h.unwritten (by simp [hready])
    have heffect := h.effect_ready (.inl hready)
    exact
      { unwritten := fun _ => ⟨hstaged, hreply⟩
        unanswered := fun _ => hstaged
        executing := fun he => by simp [heffect] at he
        effect_ready := fun _ => heffect
        effect_applied := fun d hd => by simp at hd
        answers := fun reply hr => by simp [hreply] at hr }
  · obtain ⟨hstaged, hreply⟩ := h.unwritten (by simp [happlied])
    exact
      { unwritten := fun _ => ⟨hstaged, hreply⟩
        unanswered := fun _ => hstaged
        executing := fun he => h.executing (.inl (by simpa using he))
        effect_ready := fun hd => by simp at hd
        effect_applied := fun d' hd => by
          obtain rfl : d = d' := by simpa using hd
          exact h.effect_applied d (.inl happlied)
        answers := fun reply hr => by simp [hreply] at hr }

/-! ### The writing statement -/

theorem filter_heldBy {row : Option Row} {r : Row} {c : Claim} {now : ℤ}
    (h : row.filter (fun r => r.HeldBy c now) = some r) :
    row = some r ∧ r.leaseToken = c.token ∧ r.receipt = none := by
  obtain ⟨hr, hheld⟩ := Option.filter_eq_some_iff.mp h
  have hheld : r.HeldBy c now := of_decide_eq_true hheld
  exact ⟨hr, hheld.1, hheld.2.1⟩

/-- Everything the writing statement can do: refuse and only end in a rollback, or answer. It
starts where nothing is written yet. -/
theorem Open.write_cases {o o' : Open} {row : Option Row} {token : Uuid} {clock clock' : Clock}
    (h : o.write row token clock = some (o', clock')) (hsound : o.Sound row) :
    o'.work = o.work ∧ o'.binding = o.binding ∧ o'.phase = .written ∧ o'.effect = o.effect ∧
      ((o'.reply = none ∧ o'.staged = none) ∨ ∃ reply, o'.reply = some reply ∧
        o'.Answers row reply) := by
  unfold Open.write at h
  split at h
  next contract ttl hwork hready =>
    have heffect := hsound.effect_ready (.inl hready)
    obtain ⟨hstaged, hreply⟩ := hsound.unwritten (by simp [hready])
    unfold Open.writeClaim at h
    split at h
    next =>
      obtain ⟨rfl, -⟩ := Prod.mk.inj (Option.some.inj h)
      exact ⟨rfl, rfl, rfl, rfl, .inr ⟨_, rfl, .acquired hwork (by simp) rfl rfl heffect⟩⟩
    next r =>
      split at h
      next hclaimable =>
        obtain ⟨count, -, heq⟩ := Option.map_eq_some_iff.mp h
        obtain ⟨rfl, -⟩ := Prod.mk.inj heq
        exact ⟨rfl, rfl, rfl, rfl, .inr ⟨_, rfl, .acquired hwork
          (by simpa using hclaimable.1) rfl hclaimable.1 heffect⟩⟩
      next =>
        split at h
        next =>
          obtain ⟨rfl, -⟩ := Prod.mk.inj (Option.some.inj h)
          exact ⟨rfl, rfl, rfl, rfl, .inl ⟨hreply, hstaged⟩⟩
        next hcontract =>
          obtain ⟨rfl, -⟩ := Prod.mk.inj (Option.some.inj h)
          exact ⟨rfl, rfl, rfl, rfl, .inr ⟨_, rfl, .refused hwork rfl (not_not.mp hcontract) rfl
            hstaged heffect⟩⟩
  next c ttl d hwork hlocked =>
    have heffect := hsound.effect_of_not_execute (by simp [hwork])
    obtain ⟨hstaged, hreply⟩ := hsound.unwritten (by simp [hlocked])
    dsimp only at h
    split at h
    next r hheld =>
      obtain ⟨hrow, htoken, hvacant⟩ := filter_heldBy hheld
      obtain ⟨rfl, -⟩ := Prod.mk.inj (Option.some.inj h)
      exact ⟨rfl, rfl, rfl, rfl, .inr ⟨_, rfl, .held hwork hrow htoken hvacant rfl heffect⟩⟩
    next =>
      obtain ⟨rfl, -⟩ := Prod.mk.inj (Option.some.inj h)
      exact ⟨rfl, rfl, rfl, rfl, .inr ⟨_, rfl, .lost hwork hstaged heffect⟩⟩
  next c d hwork hlocked =>
    have heffect := hsound.effect_of_not_execute (by simp [hwork])
    obtain ⟨hstaged, hreply⟩ := hsound.unwritten (by simp [hlocked])
    split at h
    next r hheld =>
      obtain ⟨hrow, htoken, hvacant⟩ := filter_heldBy hheld
      obtain ⟨rfl, -⟩ := Prod.mk.inj (Option.some.inj h)
      exact ⟨rfl, rfl, rfl, rfl, .inr ⟨_, rfl, .released hwork hrow htoken hvacant rfl heffect⟩⟩
    next =>
      obtain ⟨rfl, -⟩ := Prod.mk.inj (Option.some.inj h)
      exact ⟨rfl, rfl, rfl, rfl, .inl ⟨hreply, hstaged⟩⟩
  next c fingerprint d hwork hlocked =>
    obtain ⟨hstaged, hreply⟩ := hsound.unwritten (by simp [hlocked])
    split at h
    next r hheld =>
      obtain ⟨hrow, htoken, hvacant⟩ := filter_heldBy hheld
      obtain ⟨rfl, -⟩ := Prod.mk.inj (Option.some.inj h)
      exact ⟨rfl, rfl, rfl, rfl, .inr ⟨_, rfl, .committed hwork hrow htoken hvacant rfl
        (hsound.effect_applied d (.inr hlocked))⟩⟩
    next =>
      obtain ⟨rfl, -⟩ := Prod.mk.inj (Option.some.inj h)
      exact ⟨rfl, rfl, rfl, rfl, .inl ⟨hreply, hstaged⟩⟩
  next => cases h

theorem Open.Sound.write {o o' : Open} {row : Option Row} {token : Uuid} {clock clock' : Clock}
    (hsound : o.Sound row) (h : o.write row token clock = some (o', clock')) : o'.Sound row := by
  obtain ⟨hwork, -, hphase, heffect, hanswer⟩ := Open.write_cases h hsound
  exact
    { unwritten := fun hne => absurd hphase hne
      unanswered := fun hnone => by
        rcases hanswer with ⟨-, hstaged⟩ | ⟨reply, hreply, -⟩
        · exact hstaged
        · simp [hreply] at hnone
      executing := fun he => by
        rw [hwork]
        exact hsound.executing (.inl (by simpa [hphase, heffect] using he))
      effect_ready := fun hd => by simp [hphase] at hd
      effect_applied := fun d hd => by simp [hphase] at hd
      answers := fun reply hr => by
        rcases hanswer with ⟨hnone, -⟩ | ⟨reply', hreply, hanswers⟩
        · simp [hnone] at hr
        · obtain rfl : reply' = reply := by simpa [hreply] using hr
          exact hanswers }

/-! ### Runs -/

/-- Everything open is sound, admitted by the fence and true to its claim, and at most one
transaction holds the row. -/
structure State.Inv (s : State) : Prop where
  sound : ∀ i o, s.transactions i = some o → o.Sound s.row
  exclusive : ∀ i o, s.transactions i = some o → o.holds = true → s.Free i
  admitted : ∀ i o, s.transactions i = some o → s.fence.checkExecution o.binding = true
  bound : ∀ i o, s.transactions i = some o → ∀ c ∈ o.work.heldClaim, c.binding = o.binding

/-- A transaction that is as it was, or the one just changed. -/
theorem State.set_eq_some {s : State} {i j : ℕ} {next : Option Open} {o : Open}
    (h : (s.set i next).transactions j = some o) :
    (j = i ∧ next = some o) ∨ (j ≠ i ∧ s.transactions j = some o) := by
  by_cases hj : j = i
  · exact .inl ⟨hj, by simpa [State.set, hj] using h⟩
  · exact .inr ⟨hj, by simpa [State.set, hj] using h⟩

theorem State.Free.of_set {s : State} {i : ℕ} (h : s.Free i) (next : Option Open) :
    (s.set i next).Free i := by
  intro j o hj ho
  rcases State.set_eq_some ho with ⟨hji, -⟩ | ⟨-, ho⟩
  · exact absurd hji hj
  · exact h j o hj ho

/-- Replacing one transaction by another that is sound, takes the row only when it is free,
and keeps its binding. -/
theorem State.Inv.set {s : State} {i : ℕ} {o' : Open} (h : s.Inv) (hsound : o'.Sound s.row)
    (hholds : o'.holds = true → s.Free i) (hadmitted : s.fence.checkExecution o'.binding = true)
    (hbound : ∀ c ∈ o'.work.heldClaim, c.binding = o'.binding) :
    (s.set i (some o')).Inv where
  sound j o ho := by
    rcases State.set_eq_some ho with ⟨rfl, hnext⟩ | ⟨-, ho⟩
    · exact Option.some.inj hnext ▸ hsound
    · exact h.sound j o ho
  exclusive j o ho hh := by
    rcases State.set_eq_some ho with ⟨rfl, hnext⟩ | ⟨hj, hold⟩
    · exact (hholds (Option.some.inj hnext ▸ hh)).of_set _
    · intro k p hk hp
      rcases State.set_eq_some hp with ⟨rfl, hnext⟩ | ⟨-, hp⟩
      · by_contra hp'
        have hfree := hholds (Option.some.inj hnext ▸ (by simpa using hp')) j o hj hold
        simp [hfree] at hh
      · exact h.exclusive j o hold hh k p hk hp
  admitted j o ho := by
    rcases State.set_eq_some ho with ⟨-, hnext⟩ | ⟨-, ho⟩
    · exact Option.some.inj hnext ▸ hadmitted
    · exact h.admitted j o ho
  bound j o ho := by
    rcases State.set_eq_some ho with ⟨-, hnext⟩ | ⟨-, ho⟩
    · exact Option.some.inj hnext ▸ hbound
    · exact h.bound j o ho

/-- A transaction ends and leaves a row; another one stays only if it does not hold the row,
or the row is as it was. -/
theorem State.Inv.finish {s : State} {i : ℕ} {row : Option Row} (h : s.Inv)
    (hrow : s.Free i ∨ row = s.row) : ({ s.set i none with row } : State).Inv := by
  have hold : ∀ {j : ℕ} {o : Open}, (s.set i none).transactions j = some o →
      j ≠ i ∧ s.transactions j = some o := by
    intro j o ho
    rcases State.set_eq_some ho with ⟨-, hnext⟩ | hold
    · cases hnext
    · exact hold
  exact
    { sound := fun j o ho => by
        obtain ⟨hj, hopen⟩ := hold ho
        rcases hrow with hfree | rfl
        · exact (h.sound j o hopen).of_not_holds (hfree j o hj hopen)
        · exact h.sound j o hopen
      exclusive := fun j o ho hh k p hk hp =>
        h.exclusive j o (hold ho).2 hh k p hk (hold hp).2
      admitted := fun j o ho => h.admitted j o (hold ho).2
      bound := fun j o ho => h.bound j o (hold ho).2 }

theorem Step.inv {s s' : State} {a : Action} (h : s.Inv) (hstep : Step s a s') : s'.Inv := by
  cases hstep with
  | start idle same admitted =>
      exact h.set (.start _ _ _) (by simp [Open.start, Open.holds]) admitted same
  | @check i o c fingerprint r running work ready row held =>
      exact h.set ((h.sound i o running).check work ready) (h.exclusive i o running)
        (h.admitted i o running) (h.bound i o running)
  | @apply i o d running checked =>
      exact h.set ((h.sound i o running).apply d checked) (h.exclusive i o running)
        (h.admitted i o running) (h.bound i o running)
  | @lock i o o' running free locked =>
      have hsame : o'.work = o.work ∧ o'.binding = o.binding := by
        rcases Open.lock_eq_some locked with ⟨-, rfl⟩ | ⟨d, -, rfl⟩ <;> exact ⟨rfl, rfl⟩
      refine h.set ((h.sound i o running).lock locked) (fun _ => free) ?_ ?_
      · exact hsame.2 ▸ h.admitted i o running
      · exact hsame.1 ▸ hsame.2 ▸ h.bound i o running
  | @write i o o' token steps clock running free triggers written =>
      obtain ⟨hwork, hbinding, -⟩ := Open.write_cases written (h.sound i o running)
      have hset : (s.set i (some o')).Inv := by
        refine h.set ((h.sound i o running).write written) (fun _ => free) ?_ ?_
        · exact hbinding ▸ h.admitted i o running
        · exact hwork ▸ hbinding ▸ h.bound i o running
      exact ⟨hset.sound, hset.exclusive, hset.admitted, hset.bound⟩
  | @commit i o reply running answered =>
      apply h.finish
      cases hstaged : o.staged with
      | none => exact .inr rfl
      | some next => exact .inl (h.exclusive i o running (by simp [Open.holds, hstaged]))
  | @abort i o running => exact h.finish (.inr rfl)
  | elapse elapsed => exact ⟨h.sound, h.exclusive, h.admitted, h.bound⟩
  | refence fence quiet =>
      exact ⟨h.sound, h.exclusive, fun i o ho => by simp [quiet i] at ho, h.bound⟩

/-- Nothing was received yet and nobody is at work. -/
def State.initial (fence : Fence) (now : ℤ) : State := ⟨fence, none, now, fun _ => none⟩

theorem inv_of_runs {fence : Fence} {now : ℤ} {labels : List Action} {s : State}
    (h : Runs Step (State.initial fence now) labels s) : s.Inv := by
  induction h with
  | nil =>
      refine ⟨?_, ?_, ?_, ?_⟩ <;>
        exact fun i o ho => by simp [State.initial] at ho
  | snoc _ hstep ih => exact hstep.inv ih

/-! ### What was committed -/

/-- The disposition a transaction made durable. -/
def Action.disposition : Action → Option Disposition
  | .committed _ _ (.committed d) => some d
  | _ => none

/-- The transaction made the handler's effect durable. -/
def Action.effect : Action → Bool
  | .committed _ o _ => o.effect
  | _ => false

def dispositions (labels : List Action) : List Disposition := labels.filterMap Action.disposition

/-- How often the handler's effect became durable. -/
def effects (labels : List Action) : ℕ := labels.countP Action.effect

def State.receipt (s : State) : Option Receipt := s.row.bind Row.receipt

/-- A commit that stores a disposition finds none stored; any other commits no effect and
keeps what is stored. -/
theorem Step.receipt {s s' : State} {a : Action} (h : s.Inv) (hstep : Step s a s') :
    (∃ d fingerprint, a.disposition = some d ∧ s.receipt = none ∧
        s'.receipt = some ⟨fingerprint, d⟩ ∧ a.effect = decide (d = .succeeded)) ∨
      (a.disposition = none ∧ a.effect = false ∧ s'.receipt = s.receipt) := by
  cases hstep with
  | @commit i o reply running answered =>
      cases (h.sound i o running).answers reply answered with
      | acquired work vacant staged fresh effect =>
          refine .inr ⟨rfl, effect, ?_⟩
          have hnone : s.receipt = none := by
            cases hrow : s.row with
            | none => simp [State.receipt, hrow]
            | some r => simp [State.receipt, hrow, vacant r hrow]
          rw [hnone]
          simp [State.receipt, staged, fresh]
      | @refused contract ttl r work present same locked staged effect =>
          refine .inr ⟨?_, effect, by simp [State.receipt, staged]⟩
          cases r.receipt <;> rfl
      | held work present token vacant staged effect =>
          exact .inr ⟨rfl, effect, by simp [State.receipt, staged, present, vacant]⟩
      | lost work staged effect =>
          exact .inr ⟨rfl, effect, by simp [State.receipt, staged]⟩
      | released work present token vacant staged effect =>
          exact .inr ⟨rfl, effect, by simp [State.receipt, staged, present, vacant]⟩
      | @committed c fingerprint r d work present token vacant staged effect =>
          exact .inl ⟨d, fingerprint, rfl, by simp [State.receipt, present, vacant],
            by simp [State.receipt, staged], effect⟩
  | _ => exact .inr ⟨rfl, rfl, rfl⟩

/-- The dispositions made durable are the stored one, and the effects follow it. -/
theorem committed_of_runs {fence : Fence} {now : ℤ} {labels : List Action} {s : State}
    (h : Runs Step (State.initial fence now) labels s) :
    dispositions labels = (s.receipt.map Receipt.disposition).toList ∧
      effects labels = if s.receipt.map Receipt.disposition = some .succeeded then 1 else 0 := by
  induction h with
  | nil => exact ⟨rfl, rfl⟩
  | @snoc labels s s' a hrun hstep ih =>
      obtain ⟨hdispositions, heffects⟩ := ih
      simp only [dispositions, effects, List.filterMap_append, List.countP_append] at *
      rcases hstep.receipt (inv_of_runs hrun) with
        ⟨d, fingerprint, hd, hnone, hsome, heffect⟩ | ⟨hd, heffect, hsame⟩
      · rw [hdispositions, heffects]
        simp [hd, hnone, hsome, heffect]
      · rw [hdispositions, heffects, hsame]
        simp [hd, heffect]

/-! ### After the receipt -/

/-- Over a row with a receipt a transaction can only have read it. -/
theorem Open.Answers.of_receipt {o : Open} {r : Row} {receipt : Receipt} {reply : Reply}
    (h : o.Answers (some r) reply) (hreceipt : r.receipt = some receipt) :
    o.staged = none ∧ ∀ ttl, o.work = .claim r.contract ttl → reply = .terminal receipt := by
  cases h with
  | acquired _ vacant _ _ _ => simp [hreceipt] at vacant
  | @refused contract ttl r' work present same locked staged effect =>
      obtain rfl := Option.some.inj present
      exact ⟨staged, fun _ _ => by simp [hreceipt]⟩
  | held _ present _ vacant _ _ =>
      obtain rfl := Option.some.inj present
      simp [hreceipt] at vacant
  | lost work staged effect => exact ⟨staged, fun ttl hclaim => by simp [work] at hclaim⟩
  | released _ present _ vacant _ _ =>
      obtain rfl := Option.some.inj present
      simp [hreceipt] at vacant
  | committed _ present _ vacant _ _ =>
      obtain rfl := Option.some.inj present
      simp [hreceipt] at vacant

/-- Once a receipt is stored a step keeps the row, commits nothing, and tells a claim of the
contract what is stored. -/
theorem Step.settled {s s' : State} {a : Action} {r : Row} {receipt : Receipt} (h : s.Inv)
    (hrow : s.row = some r) (hreceipt : r.receipt = some receipt) (hstep : Step s a s') :
    s'.row = some r ∧ ∀ i o reply ttl, a = .committed i o reply →
      o.work = .claim r.contract ttl → reply = .terminal receipt := by
  cases hstep with
  | @commit i o reply running answered =>
      have hanswers := (h.sound i o running).answers reply answered
      rw [hrow] at hanswers
      obtain ⟨hstaged, hclaim⟩ := hanswers.of_receipt hreceipt
      refine ⟨by simp [hstaged, hrow], ?_⟩
      rintro _ _ _ ttl ⟨⟩ hwork
      exact hclaim ttl hwork
  | _ => exact ⟨hrow, by rintro _ _ _ _ ⟨⟩⟩

theorem settled_of_runs {s s' : State} {labels : List Action} {r : Row} {receipt : Receipt}
    (h : s.Inv) (hrow : s.row = some r) (hreceipt : r.receipt = some receipt)
    (hrun : Runs Step s labels s') :
    s'.Inv ∧ s'.row = some r ∧ dispositions labels = [] ∧ effects labels = 0 ∧
      ∀ i o reply ttl, .committed i o reply ∈ labels → o.work = .claim r.contract ttl →
        reply = .terminal receipt := by
  induction hrun with
  | nil => exact ⟨h, hrow, rfl, rfl, by simp⟩
  | @snoc labels m m' a _ hstep ih =>
      obtain ⟨hinv, hsame, hdispositions, heffects, hclaims⟩ := ih
      obtain ⟨hnext, hclaim⟩ := hstep.settled hinv hsame hreceipt
      have hnew : a.disposition = none ∧ a.effect = false := by
        rcases hstep.receipt hinv with ⟨_, _, _, hnone, _⟩ | ⟨hd, heffect, -⟩
        · simp [State.receipt, hsame, hreceipt] at hnone
        · exact ⟨hd, heffect⟩
      refine ⟨hstep.inv hinv, hnext, ?_, ?_, ?_⟩
      · simp only [dispositions, List.filterMap_append] at hdispositions ⊢
        simp [hdispositions, hnew.1]
      · simp only [effects, List.countP_append] at heffects ⊢
        simp [heffects, hnew.2]
      · intro i o reply ttl hmem hwork
        rcases List.mem_append.mp hmem with hmem | hmem
        · exact hclaims i o reply ttl hmem hwork
        · exact hclaim i o reply ttl (List.mem_singleton.mp hmem).symm hwork

/-- A claim over a receipt is told the receipt and changes nothing. -/
theorem Open.write_claim_settled {o : Open} {r : Row} {receipt : Receipt} {ttl : ℤ} {token : Uuid}
    {clock : Clock} (hwork : o.work = .claim r.contract ttl) (hready : o.phase = .ready)
    (hreceipt : r.receipt = some receipt) :
    ∃ o' clock', o.write (some r) token clock = some (o', clock') ∧
      o'.reply = some (.terminal receipt) ∧ o'.staged = o.staged := by
  have hnot : ¬ r.Claimable o.binding r.contract clock.tick.now := by
    simp [Row.Claimable, hreceipt]
  refine ⟨{ o with phase := .written, locked := true, reply := some (.terminal receipt) },
    clock.tick, ?_, rfl, rfl⟩
  simp [Open.write, hwork, hready, Open.writeClaim, hnot, hreceipt]

/-- A transaction for a claim whose token is not the row's commits nothing. -/
theorem Open.Answers.of_token {o : Open} {row : Option Row} {reply : Reply} {c : Claim}
    (h : o.Answers row reply) (hc : c ∈ o.work.heldClaim)
    (hstale : ∀ r ∈ row, r.leaseToken ≠ c.token) : o.staged = none ∧ o.effect = false := by
  cases h with
  | acquired work _ _ _ _ => simp [work, Work.heldClaim] at hc
  | refused work _ _ _ _ _ => simp [work, Work.heldClaim] at hc
  | held work present token _ _ _ =>
      obtain rfl : _ = c := by simpa [work, Work.heldClaim] using hc
      exact absurd token (hstale _ present)
  | lost _ staged effect => exact ⟨staged, effect⟩
  | released work present token _ _ _ =>
      obtain rfl : _ = c := by simpa [work, Work.heldClaim] using hc
      exact absurd token (hstale _ present)
  | committed work present token _ _ _ =>
      obtain rfl : _ = c := by simpa [work, Work.heldClaim] using hc
      exact absurd token (hstale _ present)

/-- Effect-once over every interleaving: at most one disposition is ever committed; the
handler's effect is durable exactly when the stored one is a success; a stored receipt stays,
nothing more is committed and a claim of its contract is told it; a transaction for a token
that is not the row's commits nothing; and nobody works under another fence than the
present one. -/
theorem inbox_effect_once {fence : Fence} {now : ℤ} {labels : List Action} {s : State}
    (h : Runs Step (State.initial fence now) labels s) :
    (dispositions labels).length ≤ 1 ∧
    (effects labels = if s.receipt.map Receipt.disposition = some .succeeded then 1 else 0) ∧
    (∀ r receipt, s.row = some r → r.receipt = some receipt →
      (∀ later s', Runs Step s later s' →
        s'.row = some r ∧ dispositions later = [] ∧ effects later = 0 ∧
        ∀ i o reply ttl, .committed i o reply ∈ later → o.work = .claim r.contract ttl →
          reply = .terminal receipt) ∧
      ∀ i o ttl token clock, s.transactions i = some o → o.work = .claim r.contract ttl →
        o.phase = .ready → ∃ o' clock', o.write s.row token clock = some (o', clock') ∧
          o'.reply = some (.terminal receipt) ∧ o'.staged = none) ∧
    (∀ i o reply s' c, Step s (.committed i o reply) s' → c ∈ o.work.heldClaim →
      (∀ r ∈ s.row, r.leaseToken ≠ c.token) → s'.row = s.row ∧ o.effect = false) ∧
    (∀ i o, s.transactions i = some o → s.fence.checkExecution o.binding = true ∧
      ∀ c ∈ o.work.heldClaim, c.binding = o.binding) := by
  have hinv := inv_of_runs h
  obtain ⟨hdispositions, heffects⟩ := committed_of_runs h
  refine ⟨?_, heffects, ?_, ?_, fun i o ho => ⟨hinv.admitted i o ho, hinv.bound i o ho⟩⟩
  · rw [hdispositions]
    cases s.receipt <;> simp
  · intro r receipt hrow hreceipt
    refine ⟨fun later s' hrun => (settled_of_runs hinv hrow hreceipt hrun).2, ?_⟩
    intro i o ttl token clock ho hwork hready
    obtain ⟨o', clock', hwrite, hreply, hstaged⟩ :=
      @Open.write_claim_settled o r receipt ttl token clock hwork hready hreceipt
    have hnone := ((hinv.sound i o ho).unwritten (by simp [hready])).1
    exact ⟨o', clock', hrow ▸ hwrite, hreply, hstaged.trans hnone⟩
  · intro i o reply s' c hstep hc hstale
    cases hstep with
    | commit running answered =>
        obtain ⟨hstaged, heffect⟩ :=
          ((hinv.sound i o running).answers reply answered).of_token hc hstale
        exact ⟨by simp [hstaged], heffect⟩

/-! ### A payment received twice -/

def ledger : Storage := ⟨1, 1⟩

def ledgerFence : Fence := ⟨some ledger, some 1⟩

def payment : Claim := ⟨7, ⟨ledger, 1⟩⟩

/-- The payment is claimed and executed; whatever is delivered later, its effect is not
applied again. -/
theorem inbox_effect_once_payment :
    ∃ labels s r, Runs Step (State.initial ledgerFence 0) labels s ∧ s.row = some r ∧
      r.receipt = some ⟨5, .succeeded⟩ ∧ effects labels = 1 ∧
      ∀ later s', Runs Step s later s' → s'.row = some r ∧ effects later = 0 := by
  have hadmitted : ledgerFence.checkExecution ⟨ledger, 1⟩ = true := by decide
  have hfree : ∀ {s : State}, (∀ j, j ≠ 0 → s.transactions j = none) → s.Free 0 :=
    fun hother j o hj ho => by simp [hother j hj] at ho
  have hclaim := Runs.snoc (Runs.snoc (Runs.single
    (@Step.start (State.initial ledgerFence 0) 0 (.claim "payment" 1000) ⟨ledger, 1⟩ rfl
      (by simp [Work.heldClaim]) hadmitted))
    (@Step.write _ 0 _ _ 7 (fun _ => 0) _ rfl
      (hfree fun j hj => by simp [State.set, hj, State.initial]) (fun _ => hadmitted) rfl))
    (@Step.commit _ 0 _ _ rfl rfl)
  have hexecute := Runs.snoc (Runs.snoc (Runs.snoc (Runs.snoc (Runs.snoc (Runs.snoc hclaim
    (@Step.start _ 0 (.execute payment 5) ⟨ledger, 1⟩ rfl (by simp [Work.heldClaim, payment])
      hadmitted))
    (@Step.check _ 0 _ _ _ _ rfl rfl rfl rfl (by decide)))
    (@Step.apply _ 0 _ .succeeded rfl rfl))
    (@Step.lock _ 0 _ _ rfl (hfree fun j hj => by simp [State.set, hj, State.initial]) rfl))
    (@Step.write _ 0 _ _ 8 (fun _ => 0) _ rfl
      (hfree fun j hj => by simp [State.set, hj, State.initial]) (fun _ => hadmitted) rfl))
    (@Step.commit _ 0 _ _ rfl rfl)
  have honce := inbox_effect_once hexecute
  refine ⟨_, _, _, hexecute, rfl, rfl, honce.2.1.trans rfl, fun later s' hrun => ?_⟩
  obtain ⟨hrow, -, heffects, -⟩ := (honce.2.2.1 _ _ rfl rfl).1 later s' hrun
  exact ⟨hrow, heffects⟩

end Rss.Messaging.Inbox
