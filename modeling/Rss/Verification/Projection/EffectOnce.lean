import Rss.Library.Runs
import Rss.Model.Projection.Store
import Mathlib.Tactic

/-! # Effects of a projection are committed once

The receipts of a generation are its inherited baseline and the facts settled since, and
only a fact without a receipt reaches the consumer's effect. -/

namespace Rss.Projection

open Rss.Sql

/-! ### What a run has done to a generation -/

/-- Facts inherited by the creation of a generation. -/
def Action.baseline (g : Generation) : Action → List (String × List UInt8)
  | .initializeGeneration _ g' start _ _ ids digests _ true =>
      if g' = g then
        match (baselineOf start ids digests).map baselineRows with
        | some (.ok rows) => rows
        | _ => []
      else []
  | _ => []

/-- Facts settled in a generation by a committed transaction. -/
def Action.settled (g : Generation) : Action → List (String × List UInt8)
  | .execute _ w _ e _ _ | .advance _ w _ e =>
      if w.generation = g then [(e.id, e.fingerprint.getD [])] else []
  | _ => []

/-- Identifiers whose effect was committed. -/
def Action.effects (g : Generation) : Action → List String
  | .execute _ w _ e _ outcome =>
      if w.generation = g ∧ outcome ≠ .duplicate then [e.id] else []
  | _ => []

def baseline (g : Generation) (acts : List Action) : List (String × List UInt8) :=
  acts.flatMap (Action.baseline g)

def settled (g : Generation) (acts : List Action) : List (String × List UInt8) :=
  acts.flatMap (Action.settled g)

def effects (g : Generation) (acts : List Action) : List String :=
  acts.flatMap (Action.effects g)

theorem baseline_snoc (g : Generation) (acts : List Action) (a : Action) :
    baseline g (acts ++ [a]) = baseline g acts ++ a.baseline g := by
  simp [baseline]

theorem settled_snoc (g : Generation) (acts : List Action) (a : Action) :
    settled g (acts ++ [a]) = settled g acts ++ a.settled g := by
  simp [settled]

theorem effects_snoc (g : Generation) (acts : List Action) (a : Action) :
    effects g (acts ++ [a]) = effects g acts ++ a.effects g := by
  simp [effects]

/-! ### Settling a fact -/

/-- The worker is the current one, stands at the stored position, and the fact comes next. -/
structure Admits (db : Db) (w : Claim) (expected : Option ℤ) (e : Event) (c : Checkpoint)
    (n : ℤ) (digest : List UInt8) : Prop where
  get : db.checkpoints.get? w.generation = some c
  epoch : w.epoch = some c.epoch
  token : c.workerToken = w.token
  expected : c.position = expected
  position : e.position = some n
  newer : ∀ m ∈ c.position, m < n
  bound : c.replay = true → ∃ m ∈ c.endPosition, n ≤ m
  fingerprint : e.fingerprint = some digest

theorem lockEvent_ok {db : Db} {session : Option Uuid} {w : Claim} {expected : Option ℤ}
    {e : Event} {duplicate : Bool} (h : lockEvent db session w expected e = .ok duplicate) :
    ∃ c n digest, Admits db w expected e c n digest ∧
      ((duplicate = false ∧ db.receipts.get? (w.generation, e.id) = none) ∨
        duplicate = true ∧ ∃ r, db.receipts.get? (w.generation, e.id) = some r ∧
          r.fingerprint = digest) := by
  unfold lockEvent at h
  obtain ⟨_, -, h⟩ := bind_eq_ok.mp h
  split at h
  · cases h
  rename_i c hc
  split at h
  · cases h
  rename_i hfence
  split at h
  · cases h
  split at h
  · cases h
  rename_i n hn
  split at h
  · cases h
  rename_i horder
  split at h
  · cases h
  rename_i digest hdigest
  simp only [not_or, ne_eq, not_not] at hfence
  obtain ⟨hepoch, htoken, -, hexpected⟩ := hfence
  simp only [not_or, not_lt, not_exists, not_and, not_le] at horder
  obtain ⟨-, hnewer, hbound⟩ := horder
  obtain ⟨hdigest, -⟩ := Option.filter_eq_some_iff.mp hdigest
  have hadm : Admits db w expected e c n digest := by
    refine ⟨hc, hepoch.symm, htoken, hexpected, hn, hnewer, ?_, hdigest⟩
    intro hreplay
    have := hbound hreplay
    push Not at this
    exact this
  refine ⟨c, n, digest, hadm, ?_⟩
  split at h
  · rename_i hnone
    cases h
    exact .inl ⟨rfl, hnone⟩
  · rename_i r hr
    split at h
    · cases h
    · rename_i hsame
      cases h
      exact .inr ⟨rfl, r, hr, not_not.mp hsame⟩

/-- What a settlement leaves: a receipt for the fact and the checkpoint at its position. -/
structure Settles (db : Db) (w : Claim) (expected : Option ℤ) (e : Event) (db' : Db) : Prop where
  admits : ∃ c n digest, Admits db w expected e c n digest ∧
    ∀ r, db.receipts.get? (w.generation, e.id) = some r → r.fingerprint = digest
  receipts : db'.receipts =
    db.receipts.insertNew (w.generation, e.id) ⟨e.fingerprint.getD [], false⟩
  checkpoints : db'.checkpoints =
    db.checkpoints.modify w.generation (fun c => { c with position := e.position })

theorem finishEvent_ok {db db' : Db} {session : Option Uuid} {w : Claim} {expected : Option ℤ}
    {e : Event} (h : finishEvent db session w expected e = .ok db') :
    Settles db w expected e db' := by
  unfold finishEvent at h
  obtain ⟨duplicate, hlock, h⟩ := bind_eq_ok.mp h
  split at h
  · cases h
  · cases h
    obtain ⟨c, n, digest, hadm, hreceipt⟩ := lockEvent_ok hlock
    refine ⟨⟨c, n, digest, hadm, ?_⟩, rfl, rfl⟩
    intro r hr
    rcases hreceipt with ⟨-, hnone⟩ | ⟨-, r', hr', hsame⟩
    · simp [hnone] at hr
    · obtain rfl := Option.some.inj (hr.symm.trans hr')
      exact hsame

/-- An execution settles its fact, and its effect ran exactly when there was no receipt. -/
theorem execute_ok {db db' : Db} {session : Option Uuid} {w : Claim} {expected : Option ℤ}
    {e : Event} {effect : Option EffectOutcome} {outcome : ApplyOutcome}
    (h : execute db session w expected e effect = .ok (db', outcome)) :
    Settles db w expected e db' ∧
      (outcome ≠ .duplicate → db.receipts.get? (w.generation, e.id) = none) := by
  unfold execute at h
  obtain ⟨duplicate, hlock, h⟩ := bind_eq_ok.mp h
  obtain ⟨result, hresult, h⟩ := bind_eq_ok.mp h
  obtain ⟨db₁, hfinish, h⟩ := bind_eq_ok.mp h
  cases h
  refine ⟨finishEvent_ok hfinish, ?_⟩
  intro hne
  obtain ⟨_, _, _, -, ⟨-, hnone⟩ | ⟨rfl, -⟩⟩ := lockEvent_ok hlock
  · exact hnone
  · cases hresult
    exact absurd rfl hne

/-! ### Creating a generation -/

theorem baselineRows_nodup {supplied : List (Option String × Option (List UInt8))}
    {rows : List (String × List UInt8)} (h : baselineRows supplied = .ok rows) :
    (rows.map Prod.fst).Nodup := by
  induction supplied generalizing rows with
  | nil =>
      cases h
      exact List.nodup_nil
  | cons fact rest ih =>
      obtain ⟨_ | id, _ | digest⟩ := fact
      · cases h
      · cases h
      · cases h
      · obtain ⟨tail, htail, h⟩ := bind_eq_ok.mp h
        split at h
        · rename_i hok
          cases h
          exact List.nodup_cons.mpr ⟨hok.2.2, ih htail⟩
        · cases h

/-- Inserting facts that have no receipt yet adds exactly their rows. -/
theorem get?_insertBaseline {g : Generation} {rows : List (String × List UInt8)} {db : Db}
    (hnodup : (rows.map Prod.fst).Nodup)
    (hfresh : ∀ row ∈ rows, db.receipts.get? (g, row.1) = none) (g' : Generation) (id : String)
    (r : Receipt) :
    (insertBaseline db g rows).receipts.get? (g', id) = some r ↔
      db.receipts.get? (g', id) = some r ∨
        g' = g ∧ ∃ fp, (id, fp) ∈ rows ∧ r = ⟨fp, true⟩ := by
  induction rows generalizing db with
  | nil => simp [insertBaseline]
  | cons row rows ih =>
      obtain ⟨hnot, hnodup⟩ := List.nodup_cons.mp hnodup
      have hrow := hfresh row (by simp)
      have hrest : ∀ row' ∈ rows, (db.receipts.insertNew (g, row.1) ⟨row.2, true⟩).get?
          (g, row'.1) = none := by
        intro row' hmem
        have hne : row'.1 ≠ row.1 := fun h => hnot (h ▸ List.mem_map_of_mem hmem)
        rw [Table.get?_insertNew, if_neg (by simp [hne])]
        exact hfresh row' (by simp [hmem])
      have := @ih { db with
        receipts := db.receipts.insertNew (g, row.1) ⟨row.2, true⟩ } hnodup hrest
      rw [insertBaseline, List.foldl_cons]
      refine this.trans ?_
      rw [Table.get?_insertNew]
      by_cases hkey : (g', id) = (g, row.1)
      · cases hkey
        have hmem : ∀ fp, (row.1, fp) ∉ rows :=
          fun fp h => hnot (List.mem_map.mpr ⟨(row.1, fp), h, rfl⟩)
        rw [if_pos rfl, hrow]
        constructor
        · rintro (h | ⟨-, fp, h, -⟩)
          · exact .inr ⟨rfl, row.2, by simp, (Option.some.inj h).symm⟩
          · exact absurd h (hmem fp)
        · rintro (h | ⟨-, fp, h, rfl⟩)
          · cases h
          · rcases List.mem_cons.mp h with h | h
            · exact .inl (by rw [← h]; rfl)
            · exact absurd h (hmem fp)
      · rw [if_neg hkey]
        refine or_congr_right (and_congr_right ?_)
        rintro rfl
        refine exists_congr (fun fp => and_congr_left (fun _ => ?_))
        have hne : (id, fp) ≠ row := fun h => hkey (by rw [← h])
        simp [hne]

theorem insertBaseline_other {g g' : Generation} (hg : g ≠ g')
    {rows : List (String × List UInt8)} {db : Db} (id : String) :
    (insertBaseline db g rows).receipts.get? (g', id) = db.receipts.get? (g', id) := by
  induction rows generalizing db with
  | nil => rfl
  | cons row rows ih =>
      rw [insertBaseline, List.foldl_cons]
      refine (@ih { db with
        receipts := db.receipts.insertNew (g, row.1) ⟨row.2, true⟩ }).trans ?_
      rw [Table.get?_insertNew, if_neg (by simp [Ne.symm hg])]

/-- A creation starts an empty generation; a repeated one changes nothing. -/
theorem initializeGeneration_ok {db db' : Db} {session : Option Uuid} {g : Generation}
    {start : Option ℤ} {replay : Bool} {stop : Option ℤ} {ids : Option (List (Option String))}
    {digests : Option (List (Option (List UInt8)))} {definition : Option (List UInt8)}
    {created : Bool}
    (h : initializeGeneration db session g start replay stop ids digests definition =
      .ok (db', created)) :
    (created = false ∧ db' = db) ∨
      created = true ∧ db.checkpoints.get? g = none ∧ CheckpointOk g start replay stop ∧
        ∃ supplied rows d, baselineOf start ids digests = some supplied ∧
          baselineRows supplied = .ok rows ∧
          db' = insertBaseline { db with
            checkpoints := db.checkpoints.insertNew g
              ⟨start, start, replay, stop, 0, none, d⟩ } g rows := by
  unfold initializeGeneration at h
  obtain ⟨_, -, h⟩ := bind_eq_ok.mp h
  obtain ⟨d, -, h⟩ := bind_eq_ok.mp h
  obtain ⟨supplied, hsupplied, h⟩ := bind_eq_ok.mp h
  split at h
  · cases h
  rename_i hok
  split at h
  · rename_i hnone
    obtain ⟨rows, hrows, h⟩ := bind_eq_ok.mp h
    cases h
    exact .inr ⟨rfl, hnone, not_not.mp hok, supplied, rows, d, okOr_eq_ok.mp hsupplied, hrows,
      rfl⟩
  · split at h
    · cases h
    · split at h
      · cases h
      · cases h
        exact .inl ⟨rfl, rfl⟩

/-- A takeover changes the worker and nothing else. -/
theorem takeover_ok {db db' : Db} {session : Option Uuid} {g : Generation}
    {token : Option Uuid} {definition : Option (List UInt8)} {epoch : ℤ}
    (h : takeover db session g token definition = .ok (db', epoch)) :
    ∃ token, db' = { db with
      checkpoints := db.checkpoints.modify g
        (fun c => { c with epoch, workerToken := some token }) } := by
  unfold takeover at h
  obtain ⟨_, -, h⟩ := bind_eq_ok.mp h
  obtain ⟨token, -, h⟩ := bind_eq_ok.mp h
  split at h
  · cases h
  · split at h
    · cases h
    · obtain ⟨epoch, -, h⟩ := bind_eq_ok.mp h
      cases h
      exact ⟨token, rfl⟩

/-! ### The record of a generation -/

/-- The tables agree with what the run has done: receipts are the inherited and the settled
facts, the inherited ones are marked, and every committed effect left a receipt of its own. -/
structure Recorded (g : Generation) (acts : List Action) (db : Db) : Prop where
  receipts : ∀ id fp, (∃ b, db.receipts.get? (g, id) = some ⟨fp, b⟩) ↔
    (id, fp) ∈ baseline g acts ∨ (id, fp) ∈ settled g acts
  inherited : ∀ id fp, db.receipts.get? (g, id) = some ⟨fp, true⟩ ↔ (id, fp) ∈ baseline g acts
  effects_nodup : (effects g acts).Nodup
  effects_new : ∀ id ∈ effects g acts, ∃ fp, db.receipts.get? (g, id) = some ⟨fp, false⟩
  missing : db.checkpoints.get? g = none → ∀ id, db.receipts.get? (g, id) = none
  bound : ∀ c, db.checkpoints.get? g = some c → c.replay = true →
    ∀ n ∈ c.position, ∃ m ∈ c.endPosition, n ≤ m

theorem recorded_empty (g : Generation) : Recorded g [] Db.empty where
  receipts id fp := by simp [Db.empty, baseline, settled]
  inherited id fp := by simp [Db.empty, baseline]
  effects_nodup := List.nodup_nil
  effects_new := by simp [effects]
  missing _ id := by simp [Db.empty]
  bound c h := by simp [Db.empty] at h

/-- An action that contributes nothing to a generation and leaves its rows alone. -/
theorem Recorded.frame {g : Generation} {acts : List Action} {db db' : Db} {a : Action}
    (h : Recorded g acts db) (hbase : a.baseline g = []) (hset : a.settled g = [])
    (heff : a.effects g = [])
    (hrec : ∀ id, db'.receipts.get? (g, id) = db.receipts.get? (g, id))
    (hcheck : ∀ c', db'.checkpoints.get? g = some c' → ∃ c, db.checkpoints.get? g = some c ∧
      c'.position = c.position ∧ c'.replay = c.replay ∧ c'.endPosition = c.endPosition)
    (hnone : db'.checkpoints.get? g = none → db.checkpoints.get? g = none) :
    Recorded g (acts ++ [a]) db' where
  receipts id fp := by
    simpa [baseline_snoc, settled_snoc, hbase, hset, hrec] using h.receipts id fp
  inherited id fp := by simpa [baseline_snoc, hbase, hrec] using h.inherited id fp
  effects_nodup := by simpa [effects_snoc, heff] using h.effects_nodup
  effects_new := by simpa [effects_snoc, heff, hrec] using h.effects_new
  missing hn id := (hrec id).trans (h.missing (hnone hn) id)
  bound c' hc' := by
    obtain ⟨c, hc, hp, hr, he⟩ := hcheck c' hc'
    rw [hp, hr, he]
    exact h.bound c hc

theorem Recorded.created {g : Generation} {acts : List Action} {db : Db} {a : Action}
    {start stop : Option ℤ} {replay : Bool} {d : List UInt8}
    {rows : List (String × List UInt8)} (h : Recorded g acts db)
    (hnone : db.checkpoints.get? g = none) (hok : CheckpointOk g start replay stop)
    (hnodup : (rows.map Prod.fst).Nodup) (hbase : a.baseline g = rows) (hset : a.settled g = [])
    (heff : a.effects g = []) :
    Recorded g (acts ++ [a]) (insertBaseline { db with
      checkpoints := db.checkpoints.insertNew g ⟨start, start, replay, stop, 0, none, d⟩ }
        g rows) := by
  have hfresh := h.missing hnone
  have hget : ∀ id r, (insertBaseline { db with
      checkpoints := db.checkpoints.insertNew g ⟨start, start, replay, stop, 0, none, d⟩ }
        g rows).receipts.get? (g, id) = some r ↔ ∃ fp, (id, fp) ∈ rows ∧ r = ⟨fp, true⟩ := by
    intro id r
    refine (get?_insertBaseline hnodup (fun row _ => hfresh row.1) g id r).trans ?_
    simp [hfresh]
  -- nothing was recorded for the generation before
  have hold : ∀ id fp, (id, fp) ∉ baseline g acts ∧ (id, fp) ∉ settled g acts := by
    intro id fp
    rw [← not_or, ← h.receipts id fp]
    simp [hfresh]
  have hbefore : ∀ id, id ∉ effects g acts := by
    intro id hid
    obtain ⟨fp, hfp⟩ := h.effects_new id hid
    simp [hfresh] at hfp
  constructor
  · intro id fp
    simp [hget, baseline_snoc, settled_snoc, hbase, hset, hold]
  · intro id fp
    simp [hget, baseline_snoc, hbase, hold]
  · simpa [effects_snoc, heff] using h.effects_nodup
  · intro id hid
    simp [effects_snoc, heff, hbefore] at hid
  · intro hmissing
    simp [insertBaseline] at hmissing
  · intro c hc hreplay n hn
    simp only [insertBaseline, Table.get?_insertNew_self, hnone, Option.getD_none,
      Option.some.injEq] at hc
    subst hc
    exact hok.2.2.2.2.2.1 hreplay n hn

theorem Recorded.settle {g : Generation} {acts : List Action} {db db' : Db} {a : Action}
    {w : Claim} {expected : Option ℤ} {e : Event} (h : Recorded g acts db)
    (hs : Settles db w expected e db') (hw : w.generation = g) (hbase : a.baseline g = [])
    (hset : a.settled g = [(e.id, e.fingerprint.getD [])])
    (heff : a.effects g = [] ∨
      a.effects g = [e.id] ∧ db.receipts.get? (w.generation, e.id) = none) :
    Recorded g (acts ++ [a]) db' := by
  subst hw
  obtain ⟨c, n, digest, hadm, hsame⟩ := hs.admits
  have hfp : e.fingerprint.getD [] = digest := by simp [hadm.fingerprint]
  rw [hfp] at hset
  have hrec := hs.receipts
  rw [hfp] at hrec
  have hself : db'.receipts.get? (w.generation, e.id) =
      some ((db.receipts.get? (w.generation, e.id)).getD ⟨digest, false⟩) := by
    rw [hrec, Table.get?_insertNew_self]
  have hother : ∀ id, id ≠ e.id →
      db'.receipts.get? (w.generation, id) = db.receipts.get? (w.generation, id) := by
    intro id hne
    rw [hrec, Table.get?_insertNew, if_neg (by simp [hne])]
  constructor
  · intro id fp
    rw [baseline_snoc, settled_snoc, hbase, hset, List.append_nil]
    by_cases hid : id = e.id
    · subst hid
      have hiff := h.receipts e.id fp
      rw [List.mem_append, List.mem_singleton, ← or_assoc, ← hiff, hself]
      cases hold : db.receipts.get? (w.generation, e.id) with
      | none => simp [eq_comm]
      | some r =>
          obtain ⟨rfp, b⟩ := r
          have hr : rfp = digest := hsame _ hold
          subst hr
          constructor
          · rintro ⟨b', hb'⟩
            exact .inl ⟨b', hb'⟩
          · rintro (hb' | heq)
            · exact hb'
            · obtain rfl : fp = rfp := (Prod.mk.inj heq).2
              exact ⟨b, rfl⟩
    · rw [hother id hid, h.receipts id fp]
      simp [hid]
  · intro id fp
    rw [baseline_snoc, hbase, List.append_nil, ← h.inherited id fp]
    by_cases hid : id = e.id
    · subst hid
      rw [hself]
      cases hold : db.receipts.get? (w.generation, e.id) with
      | none => simp
      | some r => simp
    · rw [hother id hid]
  · rw [effects_snoc]
    rcases heff with heff | ⟨heff, hnone⟩
    · simpa [heff] using h.effects_nodup
    · rw [heff, List.nodup_append]
      refine ⟨h.effects_nodup, List.nodup_singleton _, ?_⟩
      rintro id hid id' hid' rfl
      obtain rfl := List.mem_singleton.mp hid'
      obtain ⟨fp, hfp⟩ := h.effects_new e.id hid
      simp [hnone] at hfp
  · intro id hid
    rw [effects_snoc] at hid
    rcases List.mem_append.mp hid with hid | hid
    · obtain ⟨fp, hfp⟩ := h.effects_new id hid
      by_cases hide : id = e.id
      · subst hide
        exact ⟨fp, by rw [hself, hfp]; rfl⟩
      · exact ⟨fp, (hother id hide).trans hfp⟩
    · rcases heff with heff | ⟨heff, hnone⟩
      · simp [heff] at hid
      · obtain rfl : id = e.id := by simpa [heff] using hid
        exact ⟨digest, by rw [hself, hnone]; rfl⟩
  · intro hmissing
    rw [hs.checkpoints, Table.get?_modify_self, hadm.get] at hmissing
    cases hmissing
  · intro c' hc' hreplay m hm
    rw [hs.checkpoints, Table.get?_modify_self, hadm.get] at hc'
    obtain rfl := Option.some.inj hc'
    simp only [hadm.position, Option.mem_def, Option.some.injEq] at hm
    subst hm
    exact hadm.bound hreplay

/-- A settlement in another generation leaves this one alone. -/
theorem Recorded.settle_other {g : Generation} {acts : List Action} {db db' : Db} {a : Action}
    {w : Claim} {expected : Option ℤ} {e : Event} (h : Recorded g acts db)
    (hs : Settles db w expected e db') (hw : g ≠ w.generation) (hbase : a.baseline g = [])
    (hset : a.settled g = []) (heff : a.effects g = []) : Recorded g (acts ++ [a]) db' := by
  have hcheck : db'.checkpoints.get? g = db.checkpoints.get? g := by
    rw [hs.checkpoints, Table.get?_modify_of_ne _ hw]
  refine h.frame hbase hset heff ?_ ?_ (fun hn => hcheck ▸ hn)
  · intro id
    rw [hs.receipts, Table.get?_insertNew, if_neg (by simp [hw])]
  · intro c hc
    exact ⟨c, hcheck ▸ hc, rfl, rfl, rfl⟩

theorem Recorded.step {g : Generation} {acts : List Action} {db db' : Db} {a : Action}
    (h : Recorded g acts db) (hstep : Step db a db') : Recorded g (acts ++ [a]) db' := by
  cases hstep with
  | @initializeGeneration _ _ g' start replay stop ids digests definition created hop =>
      rcases initializeGeneration_ok hop with
        ⟨rfl, rfl⟩ | ⟨rfl, hnone, hok, supplied, rows, d, hsupplied, hrows, rfl⟩
      · exact h.frame rfl rfl rfl (fun _ => rfl) (fun c hc => ⟨c, hc, rfl, rfl, rfl⟩) id
      · have hnodup := baselineRows_nodup hrows
        by_cases hg : g' = g
        · subst hg
          exact h.created hnone hok hnodup (by simp [Action.baseline, hsupplied, hrows]) rfl rfl
        · have hcheck : ∀ v, (db.checkpoints.insertNew g' v).get? g = db.checkpoints.get? g :=
            fun v => by rw [Table.get?_insertNew, if_neg (Ne.symm hg)]
          refine h.frame (by simp [Action.baseline, hg]) rfl rfl ?_ ?_ ?_
          · exact fun id => insertBaseline_other hg id
          · intro c hc
            exact ⟨c, (hcheck _).symm.trans hc, rfl, rfl, rfl⟩
          · exact fun hn => (hcheck _).symm.trans hn
  | @takeover _ _ g' token definition epoch hop =>
      obtain ⟨token, rfl⟩ := takeover_ok hop
      refine h.frame rfl rfl rfl (fun _ => rfl) ?_ ?_
      · intro c' hc'
        rw [Table.get?_modify] at hc'
        split at hc'
        · obtain ⟨c, hc, rfl⟩ := Option.map_eq_some_iff.mp hc'
          exact ⟨c, hc, rfl, rfl, rfl⟩
        · exact ⟨c', hc', rfl, rfl, rfl⟩
      · intro hn
        rw [Table.get?_modify] at hn
        split at hn
        · exact Option.map_eq_none_iff.mp hn
        · exact hn
  | @execute _ _ w expected e effect outcome hop =>
      obtain ⟨hs, hnew⟩ := execute_ok hop
      by_cases hw : w.generation = g
      · refine h.settle hs hw rfl (by simp [Action.settled, hw]) ?_
        by_cases hdup : outcome = .duplicate
        · exact .inl (by simp [Action.effects, hdup])
        · exact .inr ⟨by simp [Action.effects, hw, hdup], hnew hdup⟩
      · exact h.settle_other hs (Ne.symm hw) rfl (by simp [Action.settled, hw])
          (by simp [Action.effects, hw])
  | @advance _ _ w expected e hop =>
      have hs := finishEvent_ok hop
      by_cases hw : w.generation = g
      · exact h.settle hs hw rfl (by simp [Action.settled, hw]) (.inl rfl)
      · exact h.settle_other hs (Ne.symm hw) rfl (by simp [Action.settled, hw]) rfl
  | rollback => exact h.frame rfl rfl rfl (fun _ => rfl) (fun c hc => ⟨c, hc, rfl, rfl, rfl⟩) id

theorem recorded_of_runs {acts : List Action} {db : Db} (h : Runs Step Db.empty acts db)
    (g : Generation) : Recorded g acts db :=
  h.invariant (recorded_empty g) (fun _ _ _ _ _ hr hstep => hr.step hstep)

/-! ### Positions and fences -/

/-- The position after is not behind the position before. -/
def PositionLe (before after : Option ℤ) : Prop := ∀ n ∈ before, ∃ m ∈ after, n ≤ m

/-- The position after is ahead of the position before. -/
def PositionLt (before after : Option ℤ) : Prop := ∃ m ∈ after, ∀ n ∈ before, n < m

theorem PositionLt.le {before after : Option ℤ} (h : PositionLt before after) :
    PositionLe before after := by
  obtain ⟨m, hm, hlt⟩ := h
  exact fun n hn => ⟨m, hm, (hlt n hn).le⟩

theorem PositionLe.refl (p : Option ℤ) : PositionLe p p := fun n hn => ⟨n, hn, le_rfl⟩

/-- The transaction settles a fact of the generation. -/
def Action.SettlesIn (a : Action) (g : Generation) : Prop := a.settled g ≠ []

theorem Settles.position {db db' : Db} {w : Claim} {expected : Option ℤ} {e : Event}
    {c : Checkpoint} (hs : Settles db w expected e db')
    (hc : db.checkpoints.get? w.generation = some c) :
    ∃ c', db'.checkpoints.get? w.generation = some c' ∧ PositionLt c.position c'.position := by
  obtain ⟨c₁, n, digest, hadm, -⟩ := hs.admits
  obtain rfl := Option.some.inj (hc.symm.trans hadm.get)
  refine ⟨_, by rw [hs.checkpoints, Table.get?_modify_self, hc]; rfl, n, hadm.position, ?_⟩
  exact hadm.newer

theorem Settles.position_other {db db' : Db} {w : Claim} {expected : Option ℤ} {e : Event}
    (hs : Settles db w expected e db') {g : Generation} (hg : g ≠ w.generation) :
    db'.checkpoints.get? g = db.checkpoints.get? g := by
  rw [hs.checkpoints, Table.get?_modify_of_ne _ hg]

/-- Positions never go back, and every settlement moves its own forward. -/
theorem Step.position {g : Generation} {db db' : Db} {a : Action} {c : Checkpoint}
    (h : Step db a db') (hc : db.checkpoints.get? g = some c) :
    ∃ c', db'.checkpoints.get? g = some c' ∧ PositionLe c.position c'.position ∧
      (a.SettlesIn g → PositionLt c.position c'.position) := by
  have hsettle : ∀ {w : Claim} {expected : Option ℤ} {e : Event},
      Settles db w expected e db' → (w.generation ≠ g → a.settled g = []) →
      ∃ c', db'.checkpoints.get? g = some c' ∧ PositionLe c.position c'.position ∧
        (a.SettlesIn g → PositionLt c.position c'.position) := by
    intro w expected e hs hother
    by_cases hw : w.generation = g
    · subst hw
      obtain ⟨c', hc', hlt⟩ := hs.position hc
      exact ⟨c', hc', hlt.le, fun _ => hlt⟩
    · exact ⟨c, (hs.position_other (Ne.symm hw)).trans hc, .refl _,
        fun h => absurd (hother hw) h⟩
  cases h with
  | @initializeGeneration _ _ g' start replay stop ids digests definition created hop =>
      rcases initializeGeneration_ok hop with
        ⟨rfl, rfl⟩ | ⟨rfl, hnone, hok, supplied, rows, d, hsupplied, hrows, rfl⟩
      · exact ⟨c, hc, .refl _, fun h => absurd rfl h⟩
      · refine ⟨c, ?_, .refl _, fun h => absurd rfl h⟩
        have hne : g ≠ g' := by
          rintro rfl
          simp [hnone] at hc
        simp [insertBaseline, Table.get?_insertNew, hne, hc]
  | @takeover _ _ g' token definition epoch hop =>
      obtain ⟨token, rfl⟩ := takeover_ok hop
      by_cases hg : g = g'
      · subst hg
        exact ⟨{ c with epoch, workerToken := some token },
          by rw [Table.get?_modify_self, hc]; rfl, .refl _, fun h => absurd rfl h⟩
      · exact ⟨c, by rw [Table.get?_modify_of_ne _ hg, hc], .refl _, fun h => absurd rfl h⟩
  | execute hop =>
      exact hsettle (execute_ok hop).1 (fun hw => by simp [Action.settled, hw])
  | advance hop => exact hsettle (finishEvent_ok hop) (fun hw => by simp [Action.settled, hw])
  | rollback => exact ⟨c, hc, .refl _, fun h => absurd rfl h⟩

/-- An execution that is not the current worker's next one is rolled back. -/
theorem afterExecute_eq {db : Db} {session : Option Uuid} {w : Claim} {expected : Option ℤ}
    {e : Event} {effect : Option EffectOutcome}
    (h : ∀ db', ¬ Settles db w expected e db') :
    afterExecute db session w expected e effect = db := by
  unfold afterExecute
  split
  · rename_i hop
    exact absurd (execute_ok hop).1 (h _)
  · rfl

/-- Effect-once under fencing, over every run from empty tables and for each generation:
positions never go back and every settlement moves one forward; an effect is committed at
most once per fact and never for an inherited one; the receipts are the inherited and the
settled facts; a stale worker, a wrong position or a changed fingerprint changes nothing;
and a replaying generation stays within its end. -/
theorem effect_once {acts : List Action} {db : Db} (h : Runs Step Db.empty acts db)
    (g : Generation) :
    (∀ a db' c, Step db a db' → db.checkpoints.get? g = some c →
      ∃ c', db'.checkpoints.get? g = some c' ∧ PositionLe c.position c'.position ∧
        (a.SettlesIn g → PositionLt c.position c'.position)) ∧
    ((effects g acts).Nodup ∧ ∀ id ∈ effects g acts, ∀ fp, (id, fp) ∉ baseline g acts) ∧
    (∀ id fp, (∃ b, db.receipts.get? (g, id) = some ⟨fp, b⟩) ↔
      (id, fp) ∈ baseline g acts ∨ (id, fp) ∈ settled g acts) ∧
    (∀ session w expected e effect, w.generation = g →
      (∀ c, db.checkpoints.get? g = some c →
        w.epoch ≠ some c.epoch ∨ w.token ≠ c.workerToken ∨ expected ≠ c.position) →
      afterExecute db session w expected e effect = db) ∧
    (∀ session w expected e effect fp, w.generation = g →
      (e.id, fp) ∈ baseline g acts ∨ (e.id, fp) ∈ settled g acts → e.fingerprint ≠ some fp →
      afterExecute db session w expected e effect = db) ∧
    (∀ c, db.checkpoints.get? g = some c → c.replay = true →
      ∀ n ∈ c.position, ∃ m ∈ c.endPosition, n ≤ m) := by
  have hrec := recorded_of_runs h g
  refine ⟨fun a db' c hstep hc => hstep.position hc, ⟨hrec.effects_nodup, ?_⟩, hrec.receipts,
    ?_, ?_, hrec.bound⟩
  · intro id hid fp hbase
    obtain ⟨fp', hnew⟩ := hrec.effects_new id hid
    have hold := (hrec.inherited id fp).mpr hbase
    simp [hnew] at hold
  · rintro session w expected e effect rfl hstale
    refine afterExecute_eq (fun db' hs => ?_)
    obtain ⟨c, n, digest, hadm, -⟩ := hs.admits
    rcases hstale c hadm.get with hepoch | htoken | hexpected
    · exact hepoch hadm.epoch
    · exact htoken hadm.token.symm
    · exact hexpected hadm.expected.symm
  · rintro session w expected e effect fp rfl hseen hne
    refine afterExecute_eq (fun db' hs => ?_)
    obtain ⟨c, n, digest, hadm, hsame⟩ := hs.admits
    obtain ⟨b, hb⟩ := (hrec.receipts e.id fp).mpr hseen
    have hdigest : fp = digest := hsame _ hb
    exact hne (hdigest ▸ hadm.fingerprint)

/-! ### A balance view -/

def balances : Generation := ⟨1, "ledger", "balances", "g1"⟩

def balancesClaim : Claim := ⟨balances, some (List.replicate 32 0), some 1, some 7⟩

def deposit (digest : UInt8) : Event := ⟨some 4, "deposit-1", some (List.replicate 32 digest)⟩

/-- The generation is created live, taken over once, and applies its first fact. -/
def balancesRun : Except Failure (Db × ApplyOutcome) := do
  let (db, _) ← initializeGeneration .empty (some 1) balances none false none (some [])
    (some []) (some (List.replicate 32 0))
  let (db, _) ← takeover db (some 1) balances (some 7) (some (List.replicate 32 0))
  execute db (some 1) balancesClaim none (deposit 1) (some .applied)

theorem effect_once_balances :
    ∃ acts db, Runs Step Db.empty acts db ∧ effects balances acts = ["deposit-1"] ∧
      afterExecute db (some 1) balancesClaim (some 4) (deposit 2) (some .applied) = db := by
  have hok : balancesRun.map Prod.snd = .ok .applied := by decide +kernel
  cases hrun : balancesRun with
  | error e => simp [hrun, Except.map] at hok
  | ok result =>
      obtain ⟨db₃, outcome⟩ := result
      obtain rfl : outcome = .applied := by simpa [hrun, Except.map] using hok
      obtain ⟨⟨db₁, created⟩, h₁, h⟩ := bind_eq_ok.mp hrun
      obtain ⟨⟨db₂, epoch⟩, h₂, h₃⟩ := bind_eq_ok.mp h
      have hruns := Runs.snoc (Runs.snoc (Runs.single (Step.initializeGeneration h₁))
        (Step.takeover h₂)) (Step.execute h₃)
      refine ⟨_, db₃, hruns, by simp [effects, Action.effects, balancesClaim, deposit], ?_⟩
      refine (effect_once hruns balances).2.2.2.2.1 (some 1) balancesClaim (some 4) (deposit 2)
        (some .applied) (List.replicate 32 1) rfl (.inr ?_) ?_
      · simp [settled, Action.settled, balancesClaim, deposit]
      · decide

end Rss.Projection
