import Rss.Verification.Outbox.Statuses

/-! # The readback of a local projection

What the receipts of a message say about its source, in runs in which no step takes the source
of a rejected effect elsewhere. There the readback of every identity that was issued finds the
receipt once both sides are durable, and never an inconsistency. -/

namespace Rss.Outbox

open Rss.Sql
open Rss.Messaging.Inbox (Digest Row)

namespace Db

variable (db : Db)

/-- The terminal receipt of a message for a group. -/
def terminal (tenant : Uuid) (message group : String) : Option Messaging.Inbox.Receipt :=
  (db.inbox.get? (tenant, message, group)).bind Row.receipt

/-- Some group's effect on the message was rejected. -/
def Rejected (tenant : Uuid) (message : String) : Prop :=
  ∃ group receipt kind, db.terminal tenant message group = some receipt ∧
    receipt.disposition = .rejected kind

/-- The source or the member of an identity was settled as a result asks. -/
def settledAs (r : Recovery) (d : TerminalDisposition) : Bool :=
  match r.operation with
  | none => (db.sources.get? r.seq).any fun src =>
      match d with
      | .succeeded => src.status = .published
      | .rejected _ => src.status = .deadLetter || src.status = .resolved
  | some operation => (db.findMember r.tenant operation r.seq).any fun row =>
      match d, row.2.status with
      | .succeeded, .completed => true
      | .rejected _, .blocked _ => true
      | _, _ => false

/-- The receipt of an identity, once the receipt and its settlement are durable. -/
def durable (r : Recovery) : Option TerminalDisposition :=
  ((db.terminal r.tenant r.message r.group).map
    Messaging.Inbox.Receipt.disposition).filter fun d => db.settledAs r d

end Db

/-! ### The invariant -/

/-- What holds between sources, members, receipts and the identities issued. -/
structure Readable (st : State) : Prop where
  sound : st.db.Sound
  issued : ∀ r ∈ st.issued, ∃ src, st.db.sources.get? r.seq = some src ∧ src.tenant = r.tenant ∧
    src.messageId = r.message ∧ src.contract = r.contract ∧ src.fingerprint = r.fingerprint ∧
    src.domain = r.domain
  inbox : ∀ t m g row, st.db.inbox.get? (t, m, g) = some row → ∃ seq src,
    st.db.sources.get? seq = some src ∧ src.tenant = t ∧ src.messageId = m ∧
      src.contract = row.contract ∧
      ∀ receipt, row.receipt = some receipt → src.fingerprint = receipt.fingerprint
  member : ∀ k m seq, st.db.members.get? k = some m → m.outboxSeq = some seq → ∃ src,
    st.db.sources.get? seq = some src ∧ src.fingerprint = m.fingerprint ∧ src.status = .published
  succeeded : ∀ seq src g receipt, st.db.sources.get? seq = some src →
    st.db.terminal src.tenant src.messageId g = some receipt → receipt.disposition = .succeeded →
      src.status = .published
  rejected : ∀ seq src g receipt kind, st.db.sources.get? seq = some src →
    st.db.terminal src.tenant src.messageId g = some receipt →
      receipt.disposition = .rejected kind → src.status ≠ .resolved ∧
        (src.status = .published → ∀ r ∈ st.issued, r.operation = none → r.tenant = src.tenant →
          r.message = src.messageId → r.group ≠ g)

theorem Readable.initial (storage : Option Messaging.Storage) (epochs : Table Uuid ℤ) :
    Readable (.initial storage epochs) := by
  constructor
  case sound => exact Db.Sound.initial storage epochs
  all_goals
    intros
    simp_all [State.initial, Db.initial]

/-- The source of a message is found at one place. -/
theorem Db.Sound.source_eq {db : Db} (h : db.Sound) {seq seq' : ℤ} {src src' : Source}
    (hsrc : db.sources.get? seq = some src) (hsrc' : db.sources.get? seq' = some src')
    (ht : src.tenant = src'.tenant) (hm : src.messageId = src'.messageId) :
    seq = seq' ∧ src = src' := by
  have hseq := h.message hsrc hsrc' ht hm
  subst hseq
  rw [hsrc] at hsrc'
  exact ⟨rfl, Option.some.inj hsrc'⟩

/-! ### Readback -/

/-- Where the invariant holds, the readback is the durable receipt. -/
theorem Readable.resolve {st : State} (h : Readable st) {r : Recovery} (hr : r ∈ st.issued) :
    st.db.resolve r = .ok (st.db.durable r) := by
  obtain ⟨src, hsrc, ht, hm, hcontract, hfingerprint, hdomain⟩ := h.issued r hr
  cases hrow : st.db.inbox.get? (r.tenant, r.message, r.group) with
  | none => simp [Db.resolve, Db.resolveRows, hrow, Db.durable, Db.terminal]
  | some row =>
      have hrows : st.db.resolveRows r = some (row, src) := by
        simp [Db.resolveRows, hrow, hsrc, ht, hm]
      obtain ⟨seq', src', hsrc', ht', hm', hrow_contract, hreceipts⟩ :=
        h.inbox r.tenant r.message r.group row hrow
      obtain ⟨-, rfl⟩ := h.sound.source_eq hsrc hsrc' (ht.trans ht'.symm) (hm.trans hm'.symm)
      have hsame : row.contract = r.contract := hrow_contract.symm.trans hcontract
      cases hreceipt : row.receipt with
      | none =>
          simp [Db.resolve, hrows, hdomain, hfingerprint, hsame, hreceipt, Db.durable, Db.terminal,
            hrow]
      | some receipt =>
          have hprint : receipt.fingerprint = r.fingerprint :=
            (hreceipts receipt hreceipt).symm.trans hfingerprint
          have hterminal : st.db.terminal r.tenant r.message r.group = some receipt := by
            rw [Db.terminal, hrow, Option.bind_some, hreceipt]
          cases hop : r.operation with
          | none =>
              have hread : st.db.resolve r = Db.resolveSource src receipt.disposition := by
                simp [Db.resolve, hrows, hdomain, hfingerprint, hsame, hreceipt, hprint, hop]
              rw [hread, Db.durable, hterminal, Option.map_some, Option.filter_some]
              simp only [Db.settledAs, hop, hsrc, Option.any_some]
              rw [← ht, ← hm] at hterminal
              cases hd : receipt.disposition with
              | succeeded =>
                  have hstatus := h.succeeded r.seq src r.group receipt hsrc hterminal hd
                  simp [Db.resolveSource, hstatus]
              | rejected kind =>
                  obtain ⟨hresolved, hpublished⟩ :=
                    h.rejected r.seq src r.group receipt kind hsrc hterminal hd
                  have hne : src.status ≠ .published :=
                    fun heq => hpublished heq r hr hop ht.symm hm.symm rfl
                  cases hstatus : src.status with
                  | pending | publishing | deadLetter => simp [Db.resolveSource, hstatus]
                  | published => exact absurd hstatus hne
                  | resolved => exact absurd hstatus hresolved
          | some operation =>
              have hread : st.db.resolve r =
                  st.db.resolveMember r operation receipt.disposition := by
                simp [Db.resolve, hrows, hdomain, hfingerprint, hsame, hreceipt, hprint, hop]
              rw [hread, Db.durable, hterminal, Option.map_some, Option.filter_some]
              simp only [Db.settledAs, hop, Db.resolveMember]
              cases hfind : st.db.findMember r.tenant operation r.seq with
              | none => rfl
              | some found =>
                  obtain ⟨hget, -, -, hseq⟩ := Db.findMember_eq_some hfind
                  obtain ⟨src₂, hsrc₂, hsame₂, -⟩ := h.member found.1 found.2 r.seq hget hseq
                  rw [hsrc] at hsrc₂
                  cases hsrc₂
                  have hmember : found.2.fingerprint = r.fingerprint :=
                    hsame₂.symm.trans hfingerprint
                  cases hd : receipt.disposition <;> cases hstatus : found.2.status <;>
                    simp [hmember, hstatus]

/-! ### Steps over the sources -/

/-- The operation leaves the receipts, and takes no source to `published` or `resolved` whose
message has a rejected receipt. -/
structure Db.Moves (db db' : Db) : Prop where
  keeps : db.Keeps db'
  inbox : db'.inbox = db.inbox
  source : ∀ seq src src', db.sources.get? seq = some src → db'.sources.get? seq = some src' →
    src'.status = src.status ∨ (src.status ≠ .published ∧
      (src'.status = .published ∨ src'.status = .resolved →
        ¬ db.Rejected src.tenant src.messageId))

theorem facts_eq_of_get {db db' : Db} (h : db.Keeps db') {seq : ℤ} {src : Source}
    (hsrc : db.sources.get? seq = some src) :
    ∃ src', db'.sources.get? seq = some src' ∧ src'.facts = src.facts := by
  obtain ⟨src', hsrc', hfacts⟩ := h.symm.source hsrc
  exact ⟨src', hsrc', hfacts.symm⟩

theorem Db.Moves.status_of_published {db db' : Db} (h : db.Moves db') {seq : ℤ}
    {src src' : Source} (hsrc : db.sources.get? seq = some src)
    (hsrc' : db'.sources.get? seq = some src') (hpublished : src.status = .published) :
    src'.status = .published := by
  rcases h.source seq src src' hsrc hsrc' with hsame | ⟨hne, -⟩
  · rw [hsame, hpublished]
  · exact absurd hpublished hne

theorem Readable.moves {st : State} {db' : Db} (h : Readable st) (hmoves : st.db.Moves db') :
    Readable { st with db := db' } := by
  have hterminal (t : Uuid) (m g : String) : db'.terminal t m g = st.db.terminal t m g := by
    rw [Db.terminal, Db.terminal, hmoves.inbox]
  constructor
  case sound => exact h.sound.keeps hmoves.keeps
  case issued =>
    intro r hr
    obtain ⟨src, hsrc, hrest⟩ := h.issued r hr
    obtain ⟨src', hsrc', hfacts⟩ := facts_eq_of_get hmoves.keeps hsrc
    simp only [Source.facts, Prod.mk.injEq] at hfacts
    obtain ⟨ht, hm, hd, -, hc, -, hf⟩ := hfacts
    refine ⟨src', hsrc', ?_⟩
    rw [ht, hm, hc, hf, hd]
    exact hrest
  case inbox =>
    intro t m g row hrow
    dsimp only at hrow
    rw [hmoves.inbox] at hrow
    obtain ⟨seq, src, hsrc, hrest⟩ := h.inbox t m g row hrow
    obtain ⟨src', hsrc', hfacts⟩ := facts_eq_of_get hmoves.keeps hsrc
    simp only [Source.facts, Prod.mk.injEq] at hfacts
    obtain ⟨ht, hm, -, -, hc, -, hf⟩ := hfacts
    refine ⟨seq, src', hsrc', ?_⟩
    rw [ht, hm, hc, hf]
    exact hrest
  case member =>
    intro k m' seq hm' hseq
    obtain ⟨m, hm, hfacts⟩ := hmoves.keeps.member hm'
    simp only [Member.facts, Prod.mk.injEq] at hfacts
    obtain ⟨-, -, -, hprint, hout⟩ := hfacts
    obtain ⟨src, hsrc, hsame, hstatus⟩ := h.member k m seq hm (hout.symm.trans hseq)
    obtain ⟨src', hsrc', hfacts'⟩ := facts_eq_of_get hmoves.keeps hsrc
    simp only [Source.facts, Prod.mk.injEq] at hfacts'
    refine ⟨src', hsrc', ?_, hmoves.status_of_published hsrc hsrc' hstatus⟩
    rw [hfacts'.2.2.2.2.2.2, hsame, hprint]
  case succeeded =>
    intro seq src' g receipt hsrc' hreceipt hd
    obtain ⟨src, hsrc, hfacts⟩ := hmoves.keeps.source hsrc'
    simp only [Source.facts, Prod.mk.injEq] at hfacts
    rw [hterminal, hfacts.1, hfacts.2.1] at hreceipt
    exact hmoves.status_of_published hsrc hsrc' (h.succeeded seq src g receipt hsrc hreceipt hd)
  case rejected =>
    intro seq src' g receipt kind hsrc' hreceipt hd
    obtain ⟨src, hsrc, hfacts⟩ := hmoves.keeps.source hsrc'
    simp only [Source.facts, Prod.mk.injEq] at hfacts
    rw [hterminal, hfacts.1, hfacts.2.1] at hreceipt
    rw [hfacts.1, hfacts.2.1]
    obtain ⟨hresolved, hpublished⟩ := h.rejected seq src g receipt kind hsrc hreceipt hd
    rcases hmoves.source seq src src' hsrc hsrc' with hsame | ⟨-, hnot⟩
    · rw [hsame]
      exact ⟨hresolved, hpublished⟩
    · have hrejected : st.db.Rejected src.tenant src.messageId := ⟨g, receipt, kind, hreceipt, hd⟩
      exact ⟨fun heq => hnot (.inr heq) hrejected, fun heq => absurd hrejected (hnot (.inl heq))⟩

theorem Db.Leases.moves {db db' : Db} (h : db.Leases db') : db.Moves db' where
  keeps := h.keeps
  inbox := h.inbox
  source := by
    intro seq src src' hsrc hsrc'
    obtain ⟨old, hold, hleased⟩ := h.sources seq src' hsrc'
    rw [hsrc] at hold
    cases hold
    rcases hleased.status with hsame | ⟨hopen, hopen'⟩
    · exact .inl hsame
    · refine .inr ⟨fun heq => ?_, fun hend => ?_⟩
      · rw [heq] at hopen
        cases hopen
      · rcases hend with heq | heq <;>
          · rw [heq] at hopen'
            cases hopen'

/-- One source is written. -/
theorem Db.moves_modify {db : Db} {db' : Db} {seq : ℤ} {o : Source} {f : Source → Source}
    (hkeeps : db.Keeps db') (hinbox : db'.inbox = db.inbox)
    (hsources : db'.sources = db.sources.modify seq f) (ho : db.sources.get? seq = some o)
    (hne : o.status ≠ .published) (hend : (f o).status = .published ∨ (f o).status = .resolved →
      ¬ db.Rejected o.tenant o.messageId) : db.Moves db' where
  keeps := hkeeps
  inbox := hinbox
  source := by
    intro seq' src src' hsrc hsrc'
    rw [hsources, Table.get?_modify] at hsrc'
    split at hsrc'
    · next hseq =>
        subst hseq
        rw [hsrc, Option.map_some, Option.some.injEq] at hsrc'
        rw [hsrc] at ho
        cases ho
        exact .inr ⟨hne, fun h => hend (hsrc' ▸ h)⟩
    · rw [hsrc] at hsrc'
      cases hsrc'
      exact .inl rfl

/-- The settlement of a claim, unless it publishes a message with a rejected receipt. -/
theorem settleOutbox_moves {db db' : Db} {s : Session} {tenant : Uuid} {c : ClaimRef}
    {d : Disposition} {env env' : Env}
    (h : settleOutbox db s tenant c d env = .ok (db', .settled, env'))
    (hclear : d = .published → c.operation = none → ∀ src, db.sources.get? c.seq = some src →
      ¬ db.Rejected src.tenant src.messageId) : db.Moves db' := by
  obtain ⟨hinbox, -, hsources⟩ := settleOutbox_sources h
  cases hop : c.operation with
  | none =>
      simp only [hop] at hsources
      obtain ⟨o, o', lease, ho, hstatus, hstatus', -, -, -, heq⟩ := hsources
      have hne : o.status ≠ .published := by simp [hstatus]
      refine Db.moves_modify (keeps_settleOutbox h) hinbox heq ho hne ?_
      rw [hstatus']
      intro hend
      refine hclear ?_ hop o ho
      cases d with
      | published => rfl
      | retry | deadLetter => rcases hend with heq | heq <;> cases heq
  | some op =>
      simp only [hop] at hsources
      refine ⟨keeps_settleOutbox h, hinbox, fun seq src src' hsrc hsrc' => .inl ?_⟩
      rw [hsources, hsrc] at hsrc'
      cases hsrc'
      rfl

/-- A redrive reopens a dead letter; a resolution ends one without a rejected receipt. -/
theorem mutate_moves {db db' : Db} {digest : Mutation → Digest} {s : Session} {m : Mutation}
    {clock : Clock} {receipt : Receipt} (h : db.mutate digest s m clock = .ok (db', receipt))
    (hclear : m.action = .redrive ∨ (db.operations.get? (m.tenant, m.operation)).isSome ∨
      ¬ db.Rejected m.tenant m.message) : db.Moves db' := by
  rcases mutate_cases h with ⟨rfl, -⟩ | ⟨hfresh, next, htransition, rfl⟩
  · exact ⟨.refl _, rfl, fun seq src src' hsrc hsrc' => .inl (by rw [hsrc] at hsrc'; cases hsrc'; rfl)⟩
  · have hkeeps := keeps_mutate h
    obtain ⟨seq, src, deadline, status, hfind, hdead, -, -, -, -, htarget, -, rfl⟩ :=
      transition_cases htransition
    obtain ⟨hsrc, ht, hm⟩ := Db.findSource_eq_some hfind
    refine Db.moves_modify (f := fun src => { src with
      status, recoveryVersion := receipt.version, retryAfter := clock.tick.tick.tick.now })
      hkeeps rfl rfl hsrc (by simp [hdead]) ?_
    intro hend hrejected
    rw [ht, hm] at hrejected
    rcases hclear with hredrive | hold | hnot
    · simp only [Db.target, hredrive] at htarget
      split at htarget
      · cases htarget
      · have hstatus : status = .pending := (Prod.mk.inj (Except.ok.inj htarget)).1.symm
        rw [hstatus] at hend
        rcases hend with heq | heq <;> cases heq
    · rw [hfresh] at hold
      cases hold
    · exact hnot hrejected

/-! ### Steps over the receipts -/

/-- Rows of the inbox go, or are written without a receipt. -/
theorem Readable.write {st : State} {db' : Db} (h : Readable st) (hkeeps : st.db.Keeps db')
    (hsources : db'.sources = st.db.sources)
    (hrows : ∀ t m g row', db'.inbox.get? (t, m, g) = some row' →
      st.db.inbox.get? (t, m, g) = some row' ∨ (row'.receipt = none ∧ ∃ seq src,
        st.db.sources.get? seq = some src ∧ src.tenant = t ∧ src.messageId = m ∧
          src.contract = row'.contract)) : Readable { st with db := db' } := by
  have hterminal {t : Uuid} {m g : String} {receipt : Messaging.Inbox.Receipt}
      (hreceipt : db'.terminal t m g = some receipt) :
      st.db.terminal t m g = some receipt := by
    obtain ⟨row', hrow', hsome⟩ := Option.bind_eq_some_iff.mp hreceipt
    rcases hrows t m g row' hrow' with hold | ⟨hnone, -⟩
    · rw [Db.terminal, hold, Option.bind_some, hsome]
    · rw [hnone] at hsome
      cases hsome
  constructor
  case sound => exact h.sound.keeps hkeeps
  case issued =>
    dsimp only
    rw [hsources]
    exact h.issued
  case inbox =>
    intro t m g row' hrow'
    dsimp only
    rw [hsources]
    rcases hrows t m g row' hrow' with hold | ⟨hnone, seq, src, hsrc, ht, hm, hc⟩
    · exact h.inbox t m g row' hold
    · refine ⟨seq, src, hsrc, ht, hm, hc, fun receipt hsome => ?_⟩
      rw [hnone] at hsome
      cases hsome
  case member =>
    intro k m' seq hm' hseq
    obtain ⟨m, hm, hfacts⟩ := hkeeps.member hm'
    simp only [Member.facts, Prod.mk.injEq] at hfacts
    obtain ⟨-, -, -, hprint, hout⟩ := hfacts
    dsimp only
    rw [hsources, hprint]
    exact h.member k m seq hm (hout.symm.trans hseq)
  case succeeded =>
    intro seq src g receipt hsrc hreceipt hd
    dsimp only at hsrc
    rw [hsources] at hsrc
    exact h.succeeded seq src g receipt hsrc (hterminal hreceipt) hd
  case rejected =>
    intro seq src g receipt kind hsrc hreceipt hd
    dsimp only at hsrc
    rw [hsources] at hsrc
    exact h.rejected seq src g receipt kind hsrc (hterminal hreceipt) hd

/-- A write of one row without a receipt. -/
theorem Readable.writeInbox {st : State} {db' : Db} {s : Session} {message group : String}
    {row : Row} {seq : ℤ} {src : Source} (h : Readable st)
    (hwrite : st.db.writeInbox s message group row = .ok db') (hnone : row.receipt = none)
    (hsrc : st.db.sources.get? seq = some src) (ht : src.tenant = s.tenant)
    (hm : src.messageId = message) (hc : src.contract = row.contract) :
    Readable { st with db := db' } := by
  obtain ⟨hframe, hkeeps⟩ := writeInbox_frame hwrite
  refine h.write hkeeps (by rw [hframe]) fun t m g row' hrow' => ?_
  rw [hframe] at hrow'
  dsimp only at hrow'
  rw [Table.get?_upsert_const] at hrow'
  split at hrow'
  · next hkey =>
      simp only [Prod.mk.injEq] at hkey
      obtain ⟨rfl, rfl, rfl⟩ := hkey
      cases hrow'
      exact .inr ⟨hnone, seq, src, hsrc, ht, hm, hc⟩
  · exact .inl hrow'

/-- An identity is issued for a source, none for one published under a rejected receipt. -/
theorem Readable.issue {st : State} {c : ClaimRef} {src : Source} {group : String}
    (h : Readable st) (hsrc : st.db.sources.get? c.seq = some src)
    (hclear : c.operation = none → ∀ receipt kind,
      st.db.terminal src.tenant src.messageId group = some receipt →
        receipt.disposition = .rejected kind → src.status ≠ .published) :
    Readable { st with issued := recoveryOf src c group :: st.issued } := by
  constructor
  case sound => exact h.sound
  case issued =>
    intro r hr
    rcases List.mem_cons.mp hr with rfl | hr
    · exact ⟨src, hsrc, rfl, rfl, rfl, rfl, rfl⟩
    · exact h.issued r hr
  case inbox => exact h.inbox
  case member => exact h.member
  case succeeded => exact h.succeeded
  case rejected =>
    intro seq src' g receipt kind hsrc' hreceipt hd
    obtain ⟨hresolved, hpublished⟩ := h.rejected seq src' g receipt kind hsrc' hreceipt hd
    refine ⟨hresolved, fun hstatus r hr hop ht hm hg => ?_⟩
    rcases List.mem_cons.mp hr with rfl | hr
    · obtain ⟨-, rfl⟩ := h.sound.source_eq hsrc hsrc' ht hm
      subst hg
      exact hclear hop receipt kind hreceipt hd hstatus
    · exact hpublished hstatus r hr hop ht hm hg

/-! ### New rows -/

theorem Readable.append {st : State} {db' : Db} {s : Session} {xid : ℕ} {seq : ℤ}
    {m : NewMessage} {now : ℤ} {reply : AppendReply} (h : Readable st)
    (hrun : appendOutbox st.db s xid seq m now = .ok (db', reply)) :
    Readable { st with db := db' } := by
  rcases appendOutbox_cases hrun with rfl | ⟨hseq, hfresh, ordinal, partitions, rfl⟩
  · exact h
  · have hget (seq' : ℤ) : (st.db.sources.insertNew seq (newSource s m ordinal now)).get? seq' =
        if seq' = seq then some (newSource s m ordinal now) else st.db.sources.get? seq' := by
      rw [Table.get?_insertNew, hseq, Option.getD_none]
    have hold {seq' : ℤ} {src : Source} (hsrc : st.db.sources.get? seq' = some src) :
        (st.db.sources.insertNew seq (newSource s m ordinal now)).get? seq' = some src := by
      rw [hget, if_neg, hsrc]
      rintro rfl
      rw [hseq] at hsrc
      cases hsrc
    have hno (g : String) : st.db.terminal s.tenant m.id g = none := by
      cases hrow : st.db.inbox.get? (s.tenant, m.id, g) with
      | none => rw [Db.terminal, hrow, Option.bind_none]
      | some row =>
          obtain ⟨seq', src, hsrc, ht, hm, -⟩ := h.inbox s.tenant m.id g row hrow
          exact absurd hm (Db.findSource_eq_none hfresh hsrc ht)
    constructor
    case sound => exact h.sound.append hseq hfresh
    case issued =>
      intro r hr
      obtain ⟨src, hsrc, hrest⟩ := h.issued r hr
      exact ⟨src, hold hsrc, hrest⟩
    case inbox =>
      intro t m g row hrow
      obtain ⟨seq', src, hsrc, hrest⟩ := h.inbox t m g row hrow
      exact ⟨seq', src, hold hsrc, hrest⟩
    case member =>
      intro k x seq' hx hseq'
      obtain ⟨src, hsrc, hrest⟩ := h.member k x seq' hx hseq'
      exact ⟨src, hold hsrc, hrest⟩
    case succeeded =>
      intro seq' src g receipt hsrc hreceipt hd
      dsimp only at hsrc
      rw [hget] at hsrc
      split at hsrc
      · cases hsrc
        have hnone : none = some receipt := (hno g).symm.trans hreceipt
        cases hnone
      · exact h.succeeded seq' src g receipt hsrc hreceipt hd
    case rejected =>
      intro seq' src g receipt kind hsrc hreceipt hd
      dsimp only at hsrc
      rw [hget] at hsrc
      split at hsrc
      · cases hsrc
        have hnone : none = some receipt := (hno g).symm.trans hreceipt
        cases hnone
      · exact h.rejected seq' src g receipt kind hsrc hreceipt hd

/-- Every member of a source carries the fingerprint of one that is published. -/
def Db.Fitted (db₀ db : Db) : Prop :=
  ∀ k m seq, db.members.get? k = some m → m.outboxSeq = some seq → ∃ src,
    db₀.sources.get? seq = some src ∧ src.fingerprint = m.fingerprint ∧ src.status = .published

/-- A plan being stored: only members are added, and they fit. -/
structure Db.Planned (db₀ db : Db) : Prop where
  sources : db.sources = db₀.sources
  inbox : db.inbox = db₀.inbox
  operations : db.operations = db₀.operations
  member : db₀.Fitted db₀ → db₀.Fitted db

namespace Db

variable {db₀ db db' : Db}

theorem Planned.insertMember {k : MemberKey} {m : Member} (h : db₀.Planned db)
    (hnew : db.insertMember k m = .ok db')
    (hm : ∀ seq, m.outboxSeq = some seq → ∃ src, db₀.sources.get? seq = some src ∧
      src.fingerprint = m.fingerprint ∧ src.status = .published) : db₀.Planned db' := by
  unfold Db.insertMember at hnew
  split at hnew
  · cases hnew
  · split at hnew
    · cases hnew
    · cases hnew
      refine ⟨h.sources, h.inbox, h.operations, fun hfit k' m' seq hm' hseq => ?_⟩
      dsimp only at hm'
      rw [Table.get?_insertNew] at hm'
      split at hm'
      · cases hold : db.members.get? k with
        | none =>
            rw [hold, Option.getD_none, Option.some.injEq] at hm'
            subst hm'
            exact hm seq hseq
        | some old =>
            rw [hold, Option.getD_some, Option.some.injEq] at hm'
            subst hm'
            exact h.member hfit k old seq hold hseq
      · exact h.member hfit k' m' seq hm' hseq

theorem Planned.addSource {s : Session} {operation : Uuid} {ordinal : ℕ} {item : DatabaseItem}
    {now : ℤ} (h : db₀.Planned db) (hadd : db.addSource s operation ordinal item now = .ok db') :
    db₀.Planned db' := by
  unfold Db.addSource at hadd
  split at hadd
  · cases hadd
  · next seq src hfind =>
      split at hadd
      · cases hadd
      · next hsame =>
          split at hadd
          · cases hadd
          · simp only [not_or, not_not] at hsame
            refine h.insertMember hadd fun seq' hseq' => ?_
            cases hseq'
            exact ⟨src, h.sources ▸ (findSource_eq_some hfind).1, rfl, hsame.1⟩

theorem Planned.addConsumer {s : Session} {operation : Uuid} {ordinal : ℕ} {item : BrokerItem}
    {now : ℤ} (h : db₀.Planned db) (hadd : db.addConsumer s operation ordinal item now = .ok db') :
    db₀.Planned db' := by
  unfold Db.addConsumer at hadd
  dsimp only at hadd
  split at hadd
  · cases hadd
  · exact h.insertMember hadd (by simp)

theorem Planned.applyNew {s : Session} {operation : Uuid} {digest : Digest}
    {request : PlanRequest} {clock : Clock} {epoch : ℤ}
    (hnew : db.applyNew s operation digest request clock = .ok (db', epoch)) :
    db.Planned db' := by
  obtain ⟨next, -, hnew⟩ := bind_eq_ok.mp hnew
  obtain ⟨planned, hplanned, hnew⟩ := bind_eq_ok.mp hnew
  have hstart : db.Planned planned := by
    unfold Db.insertPlan at hplanned
    split at hplanned
    · cases hplanned
    · cases hplanned
      exact ⟨rfl, rfl, rfl, id⟩
  cases request with
  | database items =>
      obtain ⟨result, hend, hnew⟩ := bind_eq_ok.mp hnew
      cases hnew
      exact addMembers_invariant (fun h hadd => h.addSource hadd) hstart hend
  | broker items =>
      obtain ⟨result, hend, hnew⟩ := bind_eq_ok.mp hnew
      cases hnew
      exact addMembers_invariant (fun h hadd => h.addConsumer hadd) hstart hend
  | terminate operation digest =>
      cases hnew
      exact hstart

end Db

theorem Readable.plan {st : State} {db' : Db} {s : Session} {operation : Uuid} {d : Digest}
    {request : PlanRequest} {expected epoch : ℤ} {clock : Clock} (h : Readable st)
    (hrun : st.db.applyDr s operation d request expected clock = .ok (db', epoch)) :
    Readable { st with db := db' } := by
  rcases Db.applyDr_cases hrun with ⟨rfl, -⟩ | ⟨-, -, -, hnew⟩
  · exact h
  · obtain ⟨hsources, hinbox, -, hmember⟩ := Db.Planned.applyNew hnew
    have hterminal (t : Uuid) (m g : String) : db'.terminal t m g = st.db.terminal t m g := by
      rw [Db.terminal, Db.terminal, hinbox]
    constructor
    case sound => exact h.sound.applyNew hnew
    case issued => simpa only [hsources] using h.issued
    case inbox => simpa only [hsources, hinbox] using h.inbox
    case member =>
      intro k m seq hm hseq
      dsimp only
      rw [hsources]
      exact hmember h.member k m seq hm hseq
    case succeeded => simpa only [hsources, hterminal] using h.succeeded
    case rejected => simpa only [hsources, hterminal] using h.rejected

/-! ### Effects -/

/-- The source of a committed effect: settled as the result asks, or published already. -/
theorem commitEffect_sources {st : State} {db' : Db} {s : Session} {r : Recovery}
    {inbox : Messaging.Inbox.Claim} {c : ClaimRef} {d : TerminalDisposition} {env : Env}
    (h : Readable st) (seq : c.seq = r.seq) (operation : c.operation = r.operation)
    (hrun : st.db.commitEffect s r inbox c d env = .ok (some db')) {i : ℤ} {src' : Source}
    (hsrc' : db'.sources.get? i = some src') :
    ∃ src, st.db.sources.get? i = some src ∧ src'.facts = src.facts ∧
      (src'.status = src.status ∧
          (i = r.seq → r.operation ≠ none ∧ src.status = .published) ∨
        r.operation = none ∧ src.status ≠ .published ∧ i = r.seq ∧
          src'.status = (settlementOf d).status) := by
  obtain ⟨row, written, env', -, -, hwrite, hsettle⟩ := commitEffect_some hrun
  obtain ⟨hframe, hkeeps⟩ := writeInbox_frame hwrite
  have hsame : written.sources = st.db.sources := by rw [hframe]
  obtain ⟨-, -, hsources⟩ := settleOutbox_sources hsettle
  cases hop : c.operation with
  | none =>
      simp only [hop, seq, hsame] at hsources
      obtain ⟨o, o', lease, ho, hstatus, hstatus', hfacts, -, -, heq⟩ := hsources
      rw [heq, Table.get?_modify] at hsrc'
      split at hsrc'
      · next hi =>
          rw [hi, ho, Option.map_some, Option.some.injEq] at hsrc'
          subst hsrc'
          exact ⟨o, hi ▸ ho, hfacts, .inr ⟨operation ▸ hop, by simp [hstatus], hi, hstatus'⟩⟩
      · next hi => exact ⟨src', hsrc', rfl, .inl ⟨rfl, fun heq => absurd heq hi⟩⟩
  | some op =>
      simp only [hop, hsame] at hsources
      rw [hsources] at hsrc'
      refine ⟨src', hsrc', rfl, .inl ⟨rfl, fun hi => ⟨?_, ?_⟩⟩⟩
      · simp [← operation, hop]
      · obtain ⟨o, lease, n, -, hwritten⟩ := settleOutbox_settled hsettle
        simp only [hop] at hwritten
        obtain ⟨m, -, hfind, -⟩ := hwritten
        obtain ⟨hget, -, -, hseq⟩ := Db.findMember_eq_some hfind
        obtain ⟨old, hold, hfacts⟩ := hkeeps.member hget
        simp only [Member.facts, Prod.mk.injEq] at hfacts
        have hold_seq : old.outboxSeq = some r.seq := by rw [← hfacts.2.2.2.2, hseq, seq]
        obtain ⟨src, hsrc, -, hpublished⟩ := h.member m.1 old r.seq hold hold_seq
        rw [hi, hsrc] at hsrc'
        cases hsrc'
        exact hpublished

/-- The commit of an effect, unless it succeeds where another group's effect was rejected, or is
rejected through a member after an ordinary attempt of the same group. -/
theorem Readable.commit {st : State} {db' : Db} {s : Session} {r : Recovery}
    {inbox : Messaging.Inbox.Claim} {c : ClaimRef} {d : TerminalDisposition} {env : Env}
    (h : Readable st) (issued : r ∈ st.issued) (tenant : r.tenant = s.tenant)
    (seq : c.seq = r.seq) (operation : c.operation = r.operation)
    (hrun : st.db.commitEffect s r inbox c d env = .ok (some db'))
    (hsucceeded : d = .succeeded → r.operation = none → ¬ st.db.Rejected r.tenant r.message)
    (hrejected : ∀ kind, d = .rejected kind → r.operation ≠ none → ∀ r' ∈ st.issued,
      r'.operation = none → r'.tenant = r.tenant → r'.message = r.message → r'.group ≠ r.group) :
    Readable { st with db := db' } := by
  have hkeeps := keeps_commitEffect hrun
  have hmove {i : ℤ} {src' : Source} (hsrc' : db'.sources.get? i = some src') :=
    commitEffect_sources h seq operation hrun hsrc'
  obtain ⟨row, written, env', hrow, -, hwrite, hsettle⟩ := commitEffect_some hrun
  have hinbox : db'.inbox = st.db.inbox.upsert (s.tenant, r.message, r.group)
      { row with receipt := some ⟨r.fingerprint, d⟩ }
      fun _ => { row with receipt := some ⟨r.fingerprint, d⟩ } := by
    rw [(settleOutbox_sources hsettle).1, (writeInbox_frame hwrite).1]
  have hget (k : Uuid × String × String) : db'.inbox.get? k =
      if k = (s.tenant, r.message, r.group) then
        some { row with receipt := some ⟨r.fingerprint, d⟩ }
      else st.db.inbox.get? k := by
    rw [hinbox, Table.get?_upsert_const]
  have hterminal (t : Uuid) (m g : String) : db'.terminal t m g =
      if (t, m, g) = (s.tenant, r.message, r.group) then some ⟨r.fingerprint, d⟩
      else st.db.terminal t m g := by
    rw [Db.terminal, hget]
    split <;> rfl
  have hpublished {i : ℤ} {src src' : Source} (hsrc : st.db.sources.get? i = some src)
      (hsrc' : db'.sources.get? i = some src') (hstatus : src.status = .published) :
      src'.status = .published := by
    obtain ⟨old, hold, -, hsame | ⟨-, hne, -, -⟩⟩ := hmove hsrc'
    · rw [hsrc] at hold
      cases hold
      rw [hsame.1, hstatus]
    · rw [hsrc] at hold
      cases hold
      exact absurd hstatus hne
  obtain ⟨own, hown, hown_t, hown_m, hown_c, hown_f, hown_d⟩ := h.issued r issued
  constructor
  case sound => exact h.sound.keeps hkeeps
  case issued =>
    intro r' hr'
    obtain ⟨src, hsrc, hrest⟩ := h.issued r' hr'
    obtain ⟨src', hsrc', hfacts⟩ := facts_eq_of_get hkeeps hsrc
    simp only [Source.facts, Prod.mk.injEq] at hfacts
    obtain ⟨ht, hm, hd, -, hc, -, hf⟩ := hfacts
    refine ⟨src', hsrc', ?_⟩
    rw [ht, hm, hc, hf, hd]
    exact hrest
  case inbox =>
    intro t m g row' hrow'
    dsimp only at hrow'
    rw [hget] at hrow'
    have hrest : ∃ i src, st.db.sources.get? i = some src ∧ src.tenant = t ∧ src.messageId = m ∧
        src.contract = row'.contract ∧
        ∀ receipt, row'.receipt = some receipt → src.fingerprint = receipt.fingerprint := by
      split at hrow'
      · next hkey =>
          cases hrow'
          simp only [Prod.mk.injEq] at hkey
          obtain ⟨rfl, rfl, rfl⟩ := hkey
          obtain ⟨i, src, hsrc, ht, hm, hc, -⟩ := h.inbox s.tenant r.message r.group row hrow
          obtain ⟨rfl, rfl⟩ := h.sound.source_eq hown hsrc ((hown_t.trans tenant).trans ht.symm)
            (hown_m.trans hm.symm)
          refine ⟨r.seq, own, hsrc, ht, hm, hc, fun receipt hsome => ?_⟩
          cases hsome
          exact hown_f
      · exact h.inbox t m g row' hrow'
    obtain ⟨i, src, hsrc, hrest⟩ := hrest
    obtain ⟨src', hsrc', hfacts⟩ := facts_eq_of_get hkeeps hsrc
    simp only [Source.facts, Prod.mk.injEq] at hfacts
    obtain ⟨ht, hm, -, -, hc, -, hf⟩ := hfacts
    refine ⟨i, src', hsrc', ?_⟩
    rw [ht, hm, hc, hf]
    exact hrest
  case member =>
    intro k m' i hm' hseq
    obtain ⟨m, hm, hfacts⟩ := hkeeps.member hm'
    simp only [Member.facts, Prod.mk.injEq] at hfacts
    obtain ⟨-, -, -, hprint, hout⟩ := hfacts
    obtain ⟨src, hsrc, hsame, hstatus⟩ := h.member k m i hm (hout.symm.trans hseq)
    obtain ⟨src', hsrc', hfacts'⟩ := facts_eq_of_get hkeeps hsrc
    simp only [Source.facts, Prod.mk.injEq] at hfacts'
    refine ⟨src', hsrc', ?_, hpublished hsrc hsrc' hstatus⟩
    rw [hfacts'.2.2.2.2.2.2, hsame, hprint]
  case succeeded =>
    intro i src' g receipt hsrc' hreceipt hd
    obtain ⟨src, hsrc, hfacts, hstatus⟩ := hmove hsrc'
    simp only [Source.facts, Prod.mk.injEq] at hfacts
    dsimp only at hreceipt
    rw [hterminal, hfacts.1, hfacts.2.1] at hreceipt
    split at hreceipt
    · next hkey =>
        cases hreceipt
        simp only [Prod.mk.injEq] at hkey
        obtain ⟨rfl, rfl⟩ := h.sound.source_eq hown hsrc (hown_t.trans (tenant.trans hkey.1.symm))
          (hown_m.trans hkey.2.1.symm)
        rcases hstatus with ⟨hsame, hmember⟩ | ⟨-, -, -, hnew⟩
        · rw [hsame, (hmember rfl).2]
        · rw [hnew, show d = .succeeded from hd]
          rfl
    · exact hpublished hsrc hsrc' (h.succeeded i src g receipt hsrc hreceipt hd)
  case rejected =>
    intro i src' g receipt kind hsrc' hreceipt hd
    obtain ⟨src, hsrc, hfacts, hstatus⟩ := hmove hsrc'
    simp only [Source.facts, Prod.mk.injEq] at hfacts
    dsimp only at hreceipt
    rw [hterminal, hfacts.1, hfacts.2.1] at hreceipt
    rw [hfacts.1, hfacts.2.1]
    split at hreceipt
    · next hkey =>
        cases hreceipt
        simp only [Prod.mk.injEq] at hkey
        obtain ⟨rfl, rfl⟩ := h.sound.source_eq hown hsrc (hown_t.trans (tenant.trans hkey.1.symm))
          (hown_m.trans hkey.2.1.symm)
        rcases hstatus with ⟨hsame, hmember⟩ | ⟨-, -, -, hnew⟩
        · obtain ⟨hop, hown_status⟩ := hmember rfl
          rw [hsame, hown_status]
          refine ⟨by simp, fun _ r' hr' hop' ht hm hg => ?_⟩
          exact hrejected kind hd hop r' hr' hop' (ht.trans hown_t) (hm.trans hown_m)
            (hg.trans hkey.2.2)
        · rw [hnew, show d = .rejected kind from hd]
          simp [settlementOf, Disposition.status]
    · obtain ⟨hresolved, hquiet⟩ := h.rejected i src g receipt kind hsrc hreceipt hd
      rcases hstatus with ⟨hsame, -⟩ | ⟨hop, -, hi, hnew⟩
      · rw [hsame]
        exact ⟨hresolved, hquiet⟩
      · subst hi
        rw [hown] at hsrc
        cases hsrc
        rw [hnew]
        cases d with
        | succeeded =>
            rw [hown_t, hown_m] at hreceipt
            exact absurd ⟨g, receipt, kind, hreceipt, hd⟩ (hsucceeded rfl hop)
        | rejected kind' => simp [settlementOf, Disposition.status]

/-- A delivery that meets a receipt settles its source as the receipt says. -/
theorem Readable.finish {st : State} {db' : Db} {s : Session} {r : Recovery} {c : ClaimRef}
    {env : Env} (h : Readable st) (issued : r ∈ st.issued) (tenant : r.tenant = s.tenant)
    (seq : c.seq = r.seq) (hrun : st.db.finishExisting s r c env = .ok (some db')) :
    Readable { st with db := db' } := by
  obtain ⟨row, receipt, env', hrow, -, hreceipt, -, hsettle⟩ := finishExisting_some hrun
  refine h.moves (settleOutbox_moves hsettle fun hd hop src hsrc => ?_)
  obtain ⟨own, hown, ht, hm, -⟩ := h.issued r issued
  rw [seq, hown] at hsrc
  obtain rfl : own = src := Option.some.inj hsrc
  have hterminal : st.db.terminal own.tenant own.messageId r.group = some receipt := by
    rw [Db.terminal, ht, hm, tenant, hrow, Option.bind_some, hreceipt]
  have hpublished : own.status = .published := by
    cases hdisposition : receipt.disposition with
    | succeeded => exact h.succeeded r.seq own r.group receipt hown hterminal hdisposition
    | rejected kind =>
        rw [hdisposition] at hd
        cases hd
  obtain ⟨-, -, hsources⟩ := settleOutbox_sources hsettle
  simp only [hop] at hsources
  obtain ⟨o, o', lease, ho, hstatus, -⟩ := hsources
  rw [seq, hown] at ho
  cases ho
  rw [hpublished] at hstatus
  cases hstatus

end Rss.Outbox
