import Rss.Verification.DeviceCommand.Operations

/-! # Superseding the commands of a device

The loop of `advance` reads the active commands page by page from the start. Every page
closes at least one command, so the number of active commands bounds the number of pages. -/

namespace Rss.DeviceCommand

open Rss.Sql

/-- The active commands of a device. -/
def Db.active (db : Db) (s : Scope) : List (Uuid × CommandId) :=
  (db.commands.rows.filter (fun row => row.1.1 = s.tenant ∧ row.2.device = s.device ∧
    row.2.terminalAt = none)).map Prod.fst

theorem Db.mem_active {db : Db} {s : Scope} {key : Uuid × CommandId} :
    key ∈ db.active s ↔ ∃ r, db.commands.get? key = some r ∧ key.1 = s.tenant ∧
      r.device = s.device ∧ r.terminalAt = none := by
  simp only [active, List.mem_map, List.mem_filter, decide_eq_true_eq, Prod.exists,
    exists_and_right, exists_eq_right, Table.mem_rows]

theorem Db.active_nodup (db : Db) (s : Scope) : (db.active s).Nodup :=
  (List.filter_sublist.map Prod.fst).nodup db.commands.nodup

namespace Tx

variable {tx tx' : Tx} {s : Scope} {authority : Uuid × DeviceId → Option Coordinate}
  {next : Coordinate}

/-! ### One page -/

/-- The commands under the keys were superseded, each by one statement; nothing else moved. -/
structure Supersedes (tx : Tx) (keys : List (Uuid × CommandId)) (tx' : Tx) : Prop where
  moves : tx.Moves tx'
  writes : tx'.writes = tx.writes ++ keys.map (fun key => .saved key .superseded)
  closed : ∀ key ∈ keys, ∃ r, tx'.db.commands.get? key = some r ∧ r.status = .superseded
  others : ∀ key, key ∉ keys → tx'.db.commands.get? key = tx.db.commands.get? key

theorem Supersedes.nil (tx : Tx) : tx.Supersedes [] tx :=
  ⟨.refl tx, by simp, by simp, fun _ _ => rfl⟩

theorem Supersedes.append {keys keys' : List (Uuid × CommandId)} {tx'' : Tx}
    (h : tx.Supersedes keys tx') (h' : tx'.Supersedes keys' tx'') :
    tx.Supersedes (keys ++ keys') tx'' := by
  refine ⟨h.moves.trans h'.moves, ?_, ?_, ?_⟩
  · rw [h'.writes, h.writes, List.map_append, List.append_assoc]
  · intro key hk
    by_cases hk' : key ∈ keys'
    · exact h'.closed key hk'
    · rw [h'.others key hk']
      exact h.closed key ((List.mem_append.mp hk).resolve_right hk')
  · intro key hk
    rw [List.mem_append, not_or] at hk
    rw [h'.others key hk.2, h.others key hk.1]

/-- A later authority supersedes one active command. -/
theorem supersede_one {row : Stored} (hs : tx.SoundAt authority) (hold : tx.Holds row)
    (hactive : row.command.record.terminalAt = none)
    (hnext : next.Supersedes row.command.spec.coordinate) :
    ∃ c tx', row.command.transition .supersede next tx.now.2 = .ok (.advanced, c) ∧
      tx.now.1.save c row.command.version = .ok tx' ∧ tx.Supersedes [row.key] tx' := by
  have hauth : row.command.Authorized .supersede next := by simpa [Command.Authorized] using hnext
  have hopen : row.command.status.isTerminal = false := by
    have := row.command.record_valid.terminal_iff
    rw [hactive] at this
    exact this
  have hd : ∀ expired, decision row.command.status .supersede expired = .ok .superseded := by
    intro expired
    unfold decision
    rw [if_neg (by simp [hopen])]
  obtain ⟨outcome, c, ht⟩ := Command.transition_of_past hauth rfl
    ((hold.past hs).mono tx.clock.le_tick)
  obtain ⟨tx', hsave, hset⟩ := now_save_settles hold ht
  rcases (Command.transition_eq_ok ht).2 with ⟨he, -⟩ | ⟨rfl, status, hst, hc⟩
  · rw [hd] at he
    cases he
  · cases (hd _).symm.trans hst
    obtain ⟨hwrites, r, hr, hrec⟩ := hset.advanced rfl
    have hstatus : c.status = .superseded := by
      rw [Command.status, hc]
      rfl
    refine ⟨c, tx', ht, hsave, tx.now_moves.trans hset.moves, ?_, ?_, ?_⟩
    · rw [hwrites, hstatus]
      rfl
    · intro key hk
      cases List.mem_singleton.mp hk
      refine ⟨r, hr, ?_⟩
      rw [← hstatus, Command.status, ← hrec]
      rfl
    · intro key hk
      exact hset.others key (fun he => hk (List.mem_singleton.mpr he))

/-- A page of active commands is superseded command by command. -/
theorem supersede_page {rows : List Stored} (hs : tx.SoundAt authority)
    (hnodup : (rows.map Stored.key).Nodup) (hold : ∀ row ∈ rows, tx.Holds row)
    (hactive : ∀ row ∈ rows, row.command.record.terminalAt = none)
    (hnext : ∀ row ∈ rows, next.Supersedes row.command.spec.coordinate) :
    ∃ tx', supersede next rows tx = .ok tx' ∧ tx.Supersedes (rows.map Stored.key) tx' := by
  induction rows generalizing tx with
  | nil => exact ⟨tx, rfl, .nil tx⟩
  | cons row rows ih =>
      obtain ⟨hnot, hnodup⟩ := List.nodup_cons.mp hnodup
      obtain ⟨c, tx₁, ht, hsave, hone⟩ := supersede_one hs (hold row List.mem_cons_self)
        (hactive row List.mem_cons_self) (hnext row List.mem_cons_self)
      have hold₁ : ∀ other ∈ rows, tx₁.Holds other := by
        intro other hother
        have hne : other.key ≠ row.key := fun he => hnot (he ▸ List.mem_map_of_mem hother)
        exact (hold other (List.mem_cons_of_mem _ hother)).of_others hne
          (fun key hk => hone.others key (fun hm => hk (List.mem_singleton.mp hm)))
      obtain ⟨tx₂, hrest, hmany⟩ := ih (hone.moves.sound _ hs) hnodup hold₁
        (fun other h => hactive other (List.mem_cons_of_mem _ h))
        (fun other h => hnext other (List.mem_cons_of_mem _ h))
      refine ⟨tx₂, ?_, hone.append hmany⟩
      unfold supersede
      dsimp only
      rw [ht, ok_bind]
      simp only [ne_eq, not_true_eq_false, if_false]
      rw [hsave, ok_bind]
      exact hrest

/-! ### The loop -/

/-- Superseded commands leave the active ones, and no other does. -/
theorem Supersedes.active_perm {keys : List (Uuid × CommandId)} (hs : tx.SoundAt authority)
    (h : tx.Supersedes keys tx') (hnodup : keys.Nodup) (hsub : keys ⊆ tx.db.active s) :
    (keys ++ tx'.db.active s).Perm (tx.db.active s) := by
  -- a superseded row carries its terminal time
  have hclosed : ∀ key ∈ keys, key ∉ tx'.db.active s := by
    intro key hk hactive
    obtain ⟨r, hr, hst⟩ := h.closed key hk
    obtain ⟨r', hr', -, -, hnone⟩ := Db.mem_active.mp hactive
    cases hr.symm.trans hr'
    have hterm := ((h.moves.sound _ hs) key r hr).valid.terminal_iff
    simp [Row.record, hst, hnone, Status.isTerminal] at hterm
  have hkept : ∀ key, key ∉ keys → (key ∈ tx'.db.active s ↔ key ∈ tx.db.active s) := by
    intro key hk
    rw [Db.mem_active, Db.mem_active, h.others key hk]
  refine (List.perm_ext_iff_of_nodup ?_ (Db.active_nodup _ _)).mpr ?_
  · refine List.nodup_append'.mpr ⟨hnodup, Db.active_nodup _ _, ?_⟩
    intro key hk
    exact hclosed key hk
  · intro key
    rw [List.mem_append]
    by_cases hk : key ∈ keys
    · exact iff_of_true (.inl hk) (hsub hk)
    · rw [hkept key hk]
      exact ⟨fun h => h.resolve_left hk, .inr⟩

theorem pageRows_subset_active (tx : Tx) (s : Scope) (limit : ℕ) :
    (tx.pageRows s none limit).map Prod.fst ⊆ tx.db.active s := by
  intro key hk
  obtain ⟨row, hrow, rfl⟩ := List.mem_map.mp hk
  obtain ⟨hr, ht, hd, hn⟩ := mem_pageRows hrow
  exact Db.mem_active.mpr ⟨row.2, hr, ht, hd, hn⟩

/-- A page of active commands is empty only when no command is active. -/
theorem active_eq_nil_of_page {limit : ℕ} (h : (tx.pageRows s none (limit + 1)).map Prod.fst = []) :
    tx.db.active s = [] := by
  rw [List.map_eq_nil_iff] at h
  have hlen := congrArg List.length h
  simp only [pageRows, List.length_take, List.length_insertionSort, List.length_nil] at hlen
  have hfilter := List.length_eq_zero_iff.mp (by omega :
    (tx.db.commands.rows.filter (fun row => row.1.1 = s.tenant ∧ row.2.device = s.device ∧
      row.2.terminalAt = none ∧ ∀ id ∈ (none : Option CommandId), id.value < row.1.2.value)).length
      = 0)
  simpa [Db.active] using hfilter

/-- With more pages than active commands the loop ends: every active command was superseded
by exactly one statement. -/
theorem supersedePages_ends {pages : ℕ} (hs : tx.SoundAt authority)
    (hscope : tx.session.tenant = s.tenant)
    (hnext : ∀ c, authority (s.tenant, s.device) = some c → next.Supersedes c)
    (hpages : (tx.db.active s).length < pages) :
    ∃ keys tx', supersedePages s next pages tx = some (.ok tx') ∧ tx.Supersedes keys tx' ∧
      keys.Perm (tx.db.active s) ∧ tx'.db.active s = [] := by
  induction pages generalizing tx with
  | zero => exact absurd hpages (Nat.not_lt_zero _)
  | succ pages ih =>
      obtain ⟨rows, hrows, hpage⟩ := page_of_sound hs hscope none 64
      cases rows with
      | nil =>
          have hempty := active_eq_nil_of_page hpage.keys.symm
          refine ⟨[], tx, ?_, .nil tx, by rw [hempty], hempty⟩
          rw [supersedePages, hrows]
      | cons row rows =>
          have hcurrent : ∀ row' ∈ row :: rows, next.Supersedes row'.command.spec.coordinate := by
            intro row' h
            obtain ⟨r, hr, hdecode⟩ := hpage.holds row' h
            have hrec := (decode_eq_ok.mp hdecode).1
            have hkey : (row'.key.1, r.device) = (s.tenant, s.device) := by
              rw [← hpage.scope row' h, Command.spec, hrec]
              rfl
            apply hnext
            rw [← hkey, (hs _ r hr).current ((congrArg Record.terminalAt hrec).symm.trans
              (hpage.active row' h)), Command.spec, hrec]
            rfl
          obtain ⟨tx₁, hsup, hone⟩ := supersede_page hs hpage.nodup hpage.holds hpage.active hcurrent
          have hperm := hone.active_perm hs hpage.nodup
            (hpage.keys ▸ pageRows_subset_active tx s 64)
          have hless : (tx₁.db.active s).length < pages := by
            have := hperm.length_eq
            simp only [List.length_append, List.length_map, List.length_cons] at this
            omega
          obtain ⟨keys, tx₂, hloop, hmany, hkeys, hempty⟩ := ih (hone.moves.sound _ hs)
            (hone.moves.session ▸ hscope) hless
          refine ⟨_, tx₂, ?_, hone.append hmany, (hkeys.append_left _).trans hperm, hempty⟩
          rw [supersedePages, hrows]
          dsimp only
          rw [hsup]
          exact hloop

/-- More pages do not change a loop that has ended. -/
theorem supersedePages_mono {pages pages' : ℕ} {r : Result Tx} (hle : pages ≤ pages')
    (h : supersedePages s next pages tx = some r) : supersedePages s next pages' tx = some r := by
  induction pages generalizing tx pages' with
  | zero => cases h
  | succ pages ih =>
      obtain ⟨pages', rfl⟩ := Nat.exists_eq_add_of_lt (Nat.lt_of_succ_le hle)
      rw [supersedePages] at h ⊢
      cases hpage : tx.page s none 64 with
      | error e =>
          rw [hpage] at h
          exact h
      | ok rows =>
          rw [hpage] at h
          cases rows with
          | nil => exact h
          | cons row rows =>
              dsimp only at h ⊢
              cases hsup : supersede next (row :: rows) tx with
              | error e =>
                  rw [hsup] at h
                  exact h
              | ok tx₁ =>
                  rw [hsup] at h
                  exact ih (by omega) h

theorem advance_mono {expected : Coordinate} {pages pages' : ℕ} {r : Result Tx}
    (hle : pages ≤ pages') (h : tx.advance pages s expected next = some r) :
    tx.advance pages' s expected next = some r := by
  unfold advance at h ⊢
  by_cases hnext : next.Supersedes expected
  · rw [if_neg (not_not.mpr hnext)] at h ⊢
    cases hauth : tx.authority s with
    | error e =>
        rw [hauth] at h
        exact h
    | ok current =>
        rw [hauth] at h
        dsimp only at h ⊢
        split_ifs at h ⊢
        · exact h
        · exact h
        · cases hadv : tx.advanceAuthority s expected next with
          | error e =>
              rw [hadv] at h
              exact h
          | ok tx₁ =>
              rw [hadv] at h
              exact supersedePages_mono hle h
  · rw [if_pos hnext] at h ⊢
    exact h

end Tx

end Rss.DeviceCommand
