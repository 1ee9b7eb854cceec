import Rss.Model.Observation.Encoding
import Mathlib.Data.Countable.Basic
import Mathlib.Data.List.Sort
import Mathlib.Logic.Encodable.Basic
import Mathlib.Logic.Equiv.List
import Mathlib.Tactic.NormNum

/-! # One form of a batch

The changes of an accepted batch stand in one order, whatever order they were authored in, so its
bytes and its digest say which batch it is, and the bytes are accepted again. -/

namespace Rss.Observation.Encoding

open Rss.Sql

variable {snapshot : Bool} {changes changes' sorted : List Change}

/-! ### Changes in key order -/

def keyLe (a b : Change) : Bool := decide (a.key.value ≤ b.key.value)

/-- The keys ascend strictly. -/
def Ascending (changes : List Change) : Prop :=
  changes.Pairwise fun a b => a.key.value < b.key.value

theorem keyLe_trans (a b c : Change) (h : keyLe a b = true) (h' : keyLe b c = true) :
    keyLe a c = true :=
  decide_eq_true (le_trans (of_decide_eq_true h) (of_decide_eq_true h'))

theorem keyLe_total (a b : Change) : (keyLe a b || keyLe b a) = true := by
  unfold keyLe
  rcases le_total a.key.value b.key.value with h | h
  · rw [decide_eq_true h, Bool.true_or]
  · rw [decide_eq_true h, Bool.or_true]

theorem key_eq_iff (a b : Change) : a.key = b.key ↔ a.key.value = b.key.value := by
  obtain ⟨⟨_, _, _, _⟩, _⟩ := a
  obtain ⟨⟨_, _, _, _⟩, _⟩ := b
  simp

/-- In key order the same key twice is the same key side by side. -/
theorem adjacent_iff (h : changes.Pairwise fun a b => keyLe a b = true) :
    (changes.zip changes.tail).any (fun p => p.1.key = p.2.key) = false ↔ Ascending changes := by
  induction changes with
  | nil => simp [Ascending]
  | cons a rest ih =>
      cases rest with
      | nil => simp [Ascending]
      | cons b rest =>
          have hpairs := List.pairwise_cons.mp h
          have hab : a.key.value ≤ b.key.value :=
            of_decide_eq_true (hpairs.1 b List.mem_cons_self)
          have htail := ih hpairs.2
          simp only [List.tail_cons, List.zip_cons_cons, List.any_cons, Bool.or_eq_false_iff,
            decide_eq_false_iff_not] at htail ⊢
          rw [htail, key_eq_iff]
          constructor
          · rintro ⟨hne, hrest⟩
            have hlt : a.key.value < b.key.value := lt_of_le_of_ne hab hne
            refine List.pairwise_cons.mpr ⟨fun c hc => ?_, hrest⟩
            rcases List.mem_cons.mp hc with rfl | hc
            · exact hlt
            · exact lt_trans hlt ((List.pairwise_cons.mp hrest).1 c hc)
          · intro hall
            have hcons := List.pairwise_cons.mp hall
            exact ⟨ne_of_lt (hcons.1 b List.mem_cons_self), hcons.2⟩

/-- What a body may hold. -/
structure Bounded (snapshot : Bool) (changes : List Change) : Prop where
  count : changes.length ≤ 1000
  value : ∀ c ∈ changes, ∀ v ∈ c.value, v.length ≤ 65536
  present : snapshot = true → ∀ c ∈ changes, c.value.isSome = true

theorem bounded_iff : (changes.length > 1000 ∨
    changes.any (fun c => c.value.any (fun v => v.length > 65536) ||
      (snapshot && c.value.isNone)) = true) ↔ ¬ Bounded snapshot changes := by
  constructor
  · rintro (hcount | hany) hbounded
    · exact absurd hbounded.count (not_le.mpr hcount)
    · obtain ⟨c, hc, hbad⟩ := List.any_eq_true.mp hany
      rcases Bool.or_eq_true_iff.mp hbad with hlong | hnone
      · cases hv : c.value with
        | none => rw [hv] at hlong; cases hlong
        | some v =>
            rw [hv] at hlong
            exact absurd (hbounded.value c hc v hv) (by simpa using hlong)
      · obtain ⟨hsnapshot, hnone⟩ := Bool.and_eq_true_iff.mp hnone
        have hsome := hbounded.present hsnapshot c hc
        simp_all
  · intro hnot
    by_contra hgood
    push Not at hgood
    obtain ⟨hcount, hany⟩ := hgood
    refine hnot ⟨hcount, ?_, ?_⟩
    · intro c hc v hv
      by_contra hlong
      refine hany (List.any_eq_true.mpr ⟨c, hc, ?_⟩)
      rw [Option.mem_def] at hv
      simp [hv, Nat.lt_of_not_le hlong]
    · intro hsnapshot c hc
      by_contra hnone
      refine hany (List.any_eq_true.mpr ⟨c, hc, ?_⟩)
      simp_all

theorem normalizeChanges_eq_ok :
    normalizeChanges snapshot changes = .ok sorted ↔
      Bounded snapshot changes ∧ sorted = changes.mergeSort keyLe ∧ Ascending sorted := by
  unfold normalizeChanges
  constructor
  · intro h
    split at h
    · cases h
    · next hbounded =>
        dsimp only at h
        split at h
        · cases h
        · next hadjacent =>
            have hsorted : changes.mergeSort keyLe = sorted := Except.ok.inj h
            refine ⟨not_not.mp (mt bounded_iff.mpr hbounded), hsorted.symm, ?_⟩
            rw [← hsorted]
            refine (adjacent_iff (List.pairwise_mergeSort keyLe_trans keyLe_total _)).mp ?_
            exact Bool.eq_false_iff.mpr hadjacent
  · rintro ⟨hbounded, rfl, hascending⟩
    have hadjacent := (adjacent_iff (List.pairwise_mergeSort keyLe_trans keyLe_total _)).mpr
      hascending
    rw [if_neg (mt bounded_iff.mp (not_not.mpr hbounded))]
    exact if_neg (Bool.eq_false_iff.mp hadjacent)

theorem Bounded.perm (h : Bounded snapshot changes) (hperm : changes.Perm changes') :
    Bounded snapshot changes' where
  count := hperm.length_eq ▸ h.count
  value := fun c hc => h.value c (hperm.mem_iff.mpr hc)
  present := fun hs c hc => h.present hs c (hperm.mem_iff.mpr hc)

theorem Ascending.mergeSort_eq (h : Ascending changes) : changes.mergeSort keyLe = changes :=
  List.mergeSort_of_pairwise (h.imp fun hab => decide_eq_true (le_of_lt hab))

theorem Ascending.eq_of_key (h : Ascending changes) {a b : Change} (ha : a ∈ changes)
    (hb : b ∈ changes) (hkey : a.key.value = b.key.value) : a = b := by
  have hnodup : (changes.map fun c => c.key.value).Nodup :=
    List.pairwise_map.mpr (h.imp fun hab => ne_of_lt hab)
  exact List.inj_on_of_nodup_map hnodup ha hb hkey

theorem normalizeChanges_error {e : ErrorKind} (h : normalizeChanges snapshot changes = .error e) :
    e = .invalidInput := by
  unfold normalizeChanges at h
  split at h
  · exact (Except.error.inj h).symm
  · dsimp only at h
    split at h
    · exact (Except.error.inj h).symm
    · cases h

theorem normalizeChanges_of_perm (h : normalizeChanges snapshot changes = .ok sorted)
    (hperm : changes.Perm changes') : normalizeChanges snapshot changes' = .ok sorted := by
  obtain ⟨hbounded, hsorted, hascending⟩ := normalizeChanges_eq_ok.mp h
  refine normalizeChanges_eq_ok.mpr ⟨hbounded.perm hperm, ?_, hascending⟩
  have hall : sorted.Perm (changes'.mergeSort keyLe) := by
    rw [hsorted]
    exact ((List.mergeSort_perm _ _).trans hperm).trans (List.mergeSort_perm _ _).symm
  refine List.Perm.eq_of_pairwise ?_ ?_ (List.pairwise_mergeSort keyLe_trans keyLe_total _) hall
  · intro a b ha hb hab hba
    refine hascending.eq_of_key ha (hall.mem_iff.mpr hb) ?_
    exact le_antisymm (of_decide_eq_true hab) (of_decide_eq_true hba)
  · exact hascending.imp fun hab => decide_eq_true (le_of_lt hab)

/-- The changes are accepted in every order or in none, and as the same list. -/
theorem normalizeChanges_perm (hperm : changes.Perm changes') :
    normalizeChanges snapshot changes = normalizeChanges snapshot changes' := by
  cases h : normalizeChanges snapshot changes with
  | ok sorted => exact (normalizeChanges_of_perm h hperm).symm
  | error e =>
      cases h' : normalizeChanges snapshot changes' with
      | ok sorted =>
          rw [normalizeChanges_of_perm h' hperm.symm] at h
          cases h
      | error e' => rw [normalizeChanges_error h, normalizeChanges_error h']

/-- What is accepted is accepted as it is. -/
theorem normalizeChanges_idem (h : normalizeChanges snapshot changes = .ok sorted) :
    normalizeChanges snapshot sorted = .ok sorted := by
  obtain ⟨-, hsorted, hascending⟩ := normalizeChanges_eq_ok.mp h
  exact normalizeChanges_of_perm h (hsorted ▸ (List.mergeSort_perm _ _).symm)

/-! ### Bodies -/

/-- The same body with its changes in another order. -/
inductive Permuted : Body → Body → Prop where
  | snapshot {changes changes' : List Change} (h : changes.Perm changes') :
      Permuted (.snapshot changes) (.snapshot changes')
  | delta {baseline : Id} {previous : ℕ} {changes changes' : List Change}
      (h : changes.Perm changes') :
      Permuted (.delta baseline previous changes) (.delta baseline previous changes')
  | partial_ {changes changes' : List Change} (h : changes.Perm changes') :
      Permuted (.partial_ changes) (.partial_ changes')
  | failed {code : Id} : Permuted (.failed code) (.failed code)

theorem Permuted.normalize {body body' : Body} (h : Permuted body body') :
    body.normalize = body'.normalize := by
  cases h with
  | snapshot h => simp only [Body.normalize, normalizeChanges_perm h]
  | delta h => simp only [Body.normalize, normalizeChanges_perm h]
  | partial_ h => simp only [Body.normalize, normalizeChanges_perm h]
  | failed => rfl

def isSnapshot : Body → Bool
  | .snapshot _ => true
  | _ => false

def bodyChanges : Body → List Change
  | .snapshot changes | .partial_ changes | .delta _ _ changes => changes
  | .failed _ => []

/-- An accepted body is bounded and ascends, and it is accepted as it is. -/
theorem normalize_eq_ok {body body' : Body} (h : body.normalize = .ok body') :
    Bounded (isSnapshot body') (bodyChanges body') ∧ Ascending (bodyChanges body') ∧
      body'.normalize = .ok body' ∧ (Body.InRange body → Body.InRange body') := by
  have hchanges : ∀ s changes sorted, normalizeChanges s changes = .ok sorted →
      Bounded s sorted ∧ Ascending sorted ∧ normalizeChanges s sorted = .ok sorted := by
    intro s changes sorted hsorted
    have hidem := normalizeChanges_idem hsorted
    obtain ⟨hbounded, -, hascending⟩ := normalizeChanges_eq_ok.mp hidem
    exact ⟨hbounded, hascending, hidem⟩
  cases body with
  | snapshot changes =>
      obtain ⟨sorted, hsorted, hbody⟩ := bind_eq_ok.mp h
      cases hbody
      obtain ⟨hbounded, hascending, hidem⟩ := hchanges _ _ _ hsorted
      refine ⟨hbounded, hascending, ?_, id⟩
      simp only [Body.normalize, hidem, ok_bind]
  | delta baseline previous changes =>
      obtain ⟨sorted, hsorted, hbody⟩ := bind_eq_ok.mp h
      cases hbody
      obtain ⟨hbounded, hascending, hidem⟩ := hchanges _ _ _ hsorted
      refine ⟨hbounded, hascending, ?_, id⟩
      simp only [Body.normalize, hidem, ok_bind]
  | partial_ changes =>
      obtain ⟨sorted, hsorted, hbody⟩ := bind_eq_ok.mp h
      cases hbody
      obtain ⟨hbounded, hascending, hidem⟩ := hchanges _ _ _ hsorted
      refine ⟨hbounded, hascending, ?_, id⟩
      simp only [Body.normalize, hidem, ok_bind]
  | failed code =>
      cases h
      refine ⟨⟨Nat.zero_le _, ?_, ?_⟩, .nil, rfl, id⟩
      · exact fun c hc => absurd hc List.not_mem_nil
      · exact fun _ c hc => absurd hc List.not_mem_nil

/-! ### The bounded writer -/

theorem foldlM_write {pieces : List (List UInt8)} {buffer bytes : List UInt8}
    (hbuffer : buffer.length ≤ maxBatch) :
    pieces.foldlM BoundedEncoding.write buffer = (.ok bytes : Result _) ↔
      bytes = buffer ++ pieces.flatten ∧ bytes.length ≤ maxBatch := by
  induction pieces generalizing buffer with
  | nil =>
      simp only [List.foldlM_nil, List.flatten_nil, List.append_nil]
      constructor
      · intro h
        cases h
        exact ⟨rfl, hbuffer⟩
      · rintro ⟨rfl, -⟩
        rfl
  | cons piece pieces ih =>
      rw [List.foldlM_cons, bind_eq_ok, List.flatten_cons, ← List.append_assoc]
      unfold BoundedEncoding.write
      constructor
      · rintro ⟨next, hnext, hrest⟩
        split at hnext
        · cases hnext
        · next hfits =>
            cases hnext
            refine (ih ?_).mp hrest
            rw [List.length_append]
            omega
      · rintro ⟨rfl, hlength⟩
        have hfits : ¬ piece.length > maxBatch - buffer.length := by
          rw [List.length_append, List.length_append] at hlength
          omega
        refine ⟨buffer ++ piece, if_neg hfits, (ih ?_).mpr ⟨rfl, hlength⟩⟩
        rw [List.length_append]
        omega

/-- The writer takes the pieces exactly when they fit together. -/
theorem toWriter_eq_ok {pieces : List (List UInt8)} {bytes : List UInt8} :
    toWriter pieces = .ok bytes ↔ bytes = pieces.flatten ∧ bytes.length ≤ maxBatch := by
  have h := @foldlM_write pieces [] bytes (Nat.zero_le _)
  rwa [List.nil_append] at h

/-! ### Batches -/

variable {j : SerdeJson} {w : WireBatch} {b b' : Batch}

theorem validated_eq_ok : Batch.validated j w = .ok b ↔
    w.version = 1 ∧ 0 ≤ w.observedAt ∧ ∃ body, w.body.normalize = .ok body ∧
      b = ⟨{ w with body }, (j.pieces { w with body }).flatten⟩ ∧
      b.canonical.length ≤ maxBatch := by
  unfold Batch.validated
  constructor
  · intro h
    split at h
    · cases h
    · next hheader =>
        push Not at hheader
        obtain ⟨body, hbody, h⟩ := bind_eq_ok.mp h
        obtain ⟨canonical, hcanonical, h⟩ := bind_eq_ok.mp h
        obtain ⟨rfl, hlength⟩ := toWriter_eq_ok.mp hcanonical
        rw [if_neg (not_lt.mpr hlength)] at h
        cases h
        exact ⟨hheader.1, hheader.2, body, hbody, rfl, hlength⟩
  · rintro ⟨hversion, hobserved, body, hbody, rfl, hlength⟩
    have hheader : ¬ (w.version ≠ 1 ∨ w.observedAt < 0) := by
      rintro (h | h)
      · exact h hversion
      · omega
    rw [if_neg hheader]
    refine bind_eq_ok.mpr ⟨body, hbody, bind_eq_ok.mpr ⟨_, toWriter_eq_ok.mpr ⟨rfl, hlength⟩, ?_⟩⟩
    rw [if_neg (not_lt.mpr hlength)]

/-- What an accepted batch is. -/
structure Accepted (j : SerdeJson) (b : Batch) : Prop where
  inRange : b.wire.InRange
  bounded : Bounded (isSnapshot b.wire.body) (bodyChanges b.wire.body)
  ascending : Ascending (bodyChanges b.wire.body)
  bytes : b.canonical = (j.pieces b.wire).flatten
  size : b.encode.length ≤ maxBatch
  decodes : Batch.decode j b.encode = .ok b

/-- The bytes of an accepted batch decode to it. -/
theorem accepted_of_validated (hj : j.RoundTrips) (hw : w.InRange)
    (h : Batch.validated j w = .ok b) : Accepted j b := by
  obtain ⟨hversion, hobserved, body, hbody, rfl, hlength⟩ := validated_eq_ok.mp h
  obtain ⟨hbounded, hascending, hidem, hrange⟩ := normalize_eq_ok hbody
  have hinRange : WireBatch.InRange { w with body } :=
    ⟨hw.version, hw.sequence, hw.observedAt, hrange hw.body⟩
  refine ⟨hinRange, hbounded, hascending, rfl, hlength, ?_⟩
  unfold Batch.decode Batch.encode
  rw [if_neg (not_lt.mpr hlength)]
  dsimp only
  rw [hj.batch _ hinRange, okOr_some, ok_bind]
  exact validated_eq_ok.mpr ⟨hversion, hobserved, body, hidem, rfl, hlength⟩

theorem accepted_of_decode {raw : List UInt8} (hj : j.RoundTrips)
    (h : Batch.decode j raw = .ok b) : Accepted j b := by
  unfold Batch.decode at h
  split at h
  · cases h
  · obtain ⟨w, hw, h⟩ := bind_eq_ok.mp h
    exact accepted_of_validated hj (hj.inRange raw w (okOr_eq_ok.mp hw)) h

/-- A report of the journal on the wire. -/
def wireOf (b : Observation.Batch) : WireBatch where
  version := 1
  id := b.id
  sequence := b.sequence
  observedAt := b.observedAt
  coverage := b.coverage
  body := b.body

/-- The journal's reports are validated as the wire structs are, where their lengths are those of the
written bytes. -/
theorem validated_codec {c : Codec} {r r' : Observation.Batch}
    (hc : ∀ b, c.length b = (j.pieces (wireOf b)).flatten.length) :
    Observation.Batch.validated c r = .ok r' ↔
      Batch.validated j (wireOf r) = .ok ⟨wireOf r', (j.pieces (wireOf r')).flatten⟩ := by
  rw [validated_eq_ok]
  unfold Observation.Batch.validated
  rw [bind_eq_ok]
  constructor
  · rintro ⟨body, hbody, h⟩
    dsimp only at h
    split at h
    · cases h
    · next hlength =>
        cases h
        refine ⟨rfl, Int.natCast_nonneg _, body, hbody, rfl, ?_⟩
        rw [hc] at hlength
        exact not_lt.mp hlength
  · rintro ⟨-, -, body, hbody, hb, hlength⟩
    have hwire : wireOf r' = wireOf { r with body } := congrArg Batch.wire hb
    have hr : r' = { r with body } := by
      cases r
      cases r'
      simp only [wireOf, WireBatch.mk.injEq, Nat.cast_inj, true_and] at hwire
      simp [hwire]
    refine ⟨body, hbody, ?_⟩
    rw [if_neg, hr]
    rw [hc, ← hr]
    exact not_lt.mpr hlength

/-! ### Digests -/

/-- The digested bytes say how long the scope and the batch are. -/
theorem preimage_inj {scope scope' : TenantScope} (hb : b.encode.length ≤ maxBatch)
    (hb' : b'.encode.length ≤ maxBatch) (h : b.preimage j scope = b'.preimage j scope') :
    j.scopeText scope = j.scopeText scope' ∧ b.encode = b'.encode := by
  have hframes := List.append_cancel_left h
  simp only [List.flatMap_cons, List.flatMap_nil, List.append_nil, List.append_assoc] at hframes
  obtain ⟨hlength, htail⟩ := List.append_inj hframes (by simp)
  have hmod := beBytes_inj_mod hlength
  have htotal := congrArg List.length htail
  simp only [List.length_append, length_beBytes] at htotal
  -- the batches are too short for the scopes to differ by a multiple of the range
  have hscope : (j.scopeText scope).length = (j.scopeText scope').length := by
    unfold maxBatch at hb hb'
    omega
  obtain ⟨htexts, hrest⟩ := List.append_inj htail hscope
  exact ⟨htexts, List.append_inj_right hrest (by simp)⟩

theorem Accepted.eq_of_encode (hb : Accepted j b) (hb' : Accepted j b')
    (h : b.encode = b'.encode) : b = b' := by
  have hdecodes := hb.decodes
  rw [h, hb'.decodes] at hdecodes
  exact (Except.ok.inj hdecodes).symm

theorem Accepted.eq_of_fingerprint {sha256 : List UInt8 → List UInt8}
    {scope scope' : TenantScope} (hj : j.RoundTrips) (hb : Accepted j b) (hb' : Accepted j b')
    (hfree : sha256 (b.preimage j scope) = sha256 (b'.preimage j scope') →
      b.preimage j scope = b'.preimage j scope')
    (h : b.fingerprint j sha256 scope = b'.fingerprint j sha256 scope') :
    b = b' ∧ scope = scope' := by
  obtain ⟨hscope, hencode⟩ := preimage_inj hb.size hb'.size (hfree h)
  refine ⟨hb.eq_of_encode hb' hencode, ?_⟩
  have hread := hj.scope scope
  rw [hscope, hj.scope scope'] at hread
  exact (Option.some.inj hread).symm

/-! ### Reading back -/

/-- The columns of an accepted batch restore to it. -/
theorem restoreBatch_columns {sha256 : List UInt8 → List UInt8} {scope : TenantScope}
    (h : Accepted j b) :
    restoreBatch j sha256 (columns j sha256 scope b) scope b.wire.id = .ok b := by
  unfold restoreBatch columns
  dsimp only
  rw [h.decodes, ok_bind]
  refine if_neg ?_
  rintro (hid | hraw | hfingerprint | hsequence)
  · exact hid rfl
  · exact hraw rfl
  · exact hfingerprint rfl
  · exact hsequence rfl

theorem restore_columns {α : Type} {sha256 : List UInt8 → List UInt8} {scope : TenantScope}
    (h : Accepted j b) (rest : Batch → Result α) :
    restore j sha256 (columns j sha256 scope b) scope b.wire.id rest =
      (rest b).mapError fun _ => .invariant := by
  unfold restore
  rw [restoreBatch_columns h, ok_bind]

/-- A retry finds its own record exactly when it has the same bytes. -/
theorem replay_eq_ok (hb : Accepted j b) (hb' : Accepted j b') :
    replay b b' = .ok b ↔ b.encode = b'.encode := by
  unfold replay
  constructor
  · intro h
    split at h
    · cases h
    · next hsame => rw [not_not.mp hsame]
  · intro h
    exact if_neg (not_not.mpr (hb.eq_of_encode hb' h))

/-! ### One form -/

/-- Every author order of the changes makes the same batch or none; an accepted batch ascends within
its bounds and its bytes decode to it, however it was spelled; its digest says which batch and which
stream it is; and what is stored of it restores, to be found by a retry with the same bytes. -/
theorem batches_canonical (hj : j.RoundTrips) (sha256 : List UInt8 → List UInt8) :
    (∀ id sequence observedAt coverage body body', Permuted body body' →
      Batch.new j id sequence observedAt coverage body =
        Batch.new j id sequence observedAt coverage body') ∧
    (∀ id sequence observedAt coverage body b, sequence < 2 ^ 64 →
      -2 ^ 63 ≤ observedAt ∧ observedAt < 2 ^ 63 → Body.InRange body →
      Batch.new j id sequence observedAt coverage body = .ok b → Accepted j b) ∧
    (∀ raw b, Batch.decode j raw = .ok b → Accepted j b) ∧
    (∀ b b' scope scope', Accepted j b → Accepted j b' →
      (sha256 (b.preimage j scope) = sha256 (b'.preimage j scope') →
        b.preimage j scope = b'.preimage j scope') →
      b.fingerprint j sha256 scope = b'.fingerprint j sha256 scope' → b = b' ∧ scope = scope') ∧
    (∀ b scope, Accepted j b →
      restoreBatch j sha256 (columns j sha256 scope b) scope b.wire.id = .ok b ∧
      (∀ α (rest : Batch → Result α), restore j sha256 (columns j sha256 scope b) scope b.wire.id
        rest = (rest b).mapError fun _ => .invariant) ∧
      ∀ b', Accepted j b' → (replay b b' = .ok b ↔ b.encode = b'.encode)) := by
  refine ⟨?_, ?_, ?_, ?_, ?_⟩
  · intro id sequence observedAt coverage body body' hperm
    unfold Batch.new Batch.validated
    simp only [hperm.normalize]
  · intro id sequence observedAt coverage body b hsequence hobserved hbody h
    exact accepted_of_validated hj ⟨by norm_num, hsequence, hobserved, hbody⟩ h
  · exact fun raw b h => accepted_of_decode hj h
  · exact fun b b' scope scope' hb hb' hfree h => hb.eq_of_fingerprint hj hb' hfree h
  · intro b scope h
    exact ⟨restoreBatch_columns h, fun _ rest => restore_columns h rest,
      fun b' h' => replay_eq_ok h h'⟩

/-! ### A writer and its reader -/

section Sampled

variable {α : Type} (code : α → ℕ) (texts : α → Option (List UInt8)) (P : α → Prop)

/-- Some values have their texts, every other one so many blanks. -/
def sampled (a : α) : List UInt8 := (texts a).getD (List.replicate (code a) 32)

/-- The value of the text, if it has the property. -/
noncomputable def unsampled (raw : List UInt8) : Option α :=
  open Classical in if h : ∃ a, P a ∧ sampled code texts a = raw then some h.choose else none

/-- The texts tell their values apart, and none of them is blank. -/
structure Legible (texts : α → Option (List UInt8)) : Prop where
  head : ∀ a text, texts a = some text → text.head? = some 123
  injective : ∀ a a' text, texts a = some text → texts a' = some text → a = a'

variable {code texts P}

theorem Legible.sampled_injective (h : Legible texts) (hcode : Function.Injective code) :
    Function.Injective (sampled code texts) := by
  have hblank : ∀ a text n, texts a = some text → text ≠ List.replicate n 32 := by
    intro a text n ha heq
    have hhead := h.head a text ha
    rw [heq] at hhead
    cases n with
    | zero => cases hhead
    | succ n => exact absurd hhead (by simp [List.replicate_succ])
  intro a a' heq
  unfold sampled at heq
  cases ha : texts a with
  | some text =>
      cases ha' : texts a' with
      | some text' =>
          rw [ha, ha'] at heq
          cases heq
          exact h.injective a a' text ha ha'
      | none =>
          rw [ha, ha'] at heq
          exact absurd heq (hblank a text _ ha)
  | none =>
      cases ha' : texts a' with
      | some text =>
          rw [ha, ha'] at heq
          exact absurd heq.symm (hblank a' text _ ha')
      | none =>
          rw [ha, ha'] at heq
          exact hcode (List.replicate_left_injective 32 heq)

theorem Legible.unsampled_sampled (h : Legible texts) (hcode : Function.Injective code) {a : α}
    (ha : P a) : unsampled code texts P (sampled code texts a) = some a := by
  have hexists : ∃ a', P a' ∧ sampled code texts a' = sampled code texts a := ⟨a, ha, rfl⟩
  unfold unsampled
  rw [dif_pos hexists]
  exact congrArg some (h.sampled_injective hcode hexists.choose_spec.2)

theorem unsampled_property {raw : List UInt8} {a : α} (h : unsampled code texts P raw = some a) :
    P a := by
  unfold unsampled at h
  split at h
  · next hexists =>
      cases h
      exact hexists.choose_spec.1
  · cases h

end Sampled

/-! ### A host report -/

/-- A type whose values are told apart by countably many parts. -/
theorem countable_of_parts {α β : Type} [Countable β] (f : α → β)
    (h : ∀ a a', f a = f a' → a = a') : Countable α :=
  Function.Injective.countable fun a a' => h a a'

instance countableString : Countable String := by
  have hchar : Countable Char :=
    countable_of_parts Char.toNat fun _ _ h => Char.ext (UInt32.toNat_inj.mp h)
  exact countable_of_parts String.toList fun _ _ h => String.toList_injective h

instance : Countable Id := by
  refine countable_of_parts Id.value fun a b h => ?_
  cases a
  cases b
  cases h
  rfl

instance : Countable Change := by
  have hbyte : Countable UInt8 := countable_of_parts UInt8.toNat fun _ _ h => UInt8.toNat_inj.mp h
  refine countable_of_parts (fun c => (c.key, c.value)) fun a b h => ?_
  cases a
  cases b
  cases h
  rfl

instance : Countable Coverage := by
  refine countable_of_parts (fun c => (c.id, c.version, c.definition, c.format)) fun a b h => ?_
  cases a
  cases b
  cases h
  rfl

/-- What tells bodies apart. -/
def bodyParts : Body → ℕ × List Id × ℕ × List Change
  | .snapshot changes => (0, [], 0, changes)
  | .delta baseline previous changes => (1, [baseline], previous, changes)
  | .partial_ changes => (2, [], 0, changes)
  | .failed code => (3, [code], 0, [])

instance : Countable Body := by
  refine countable_of_parts bodyParts fun a b h => ?_
  cases a <;> cases b <;> simp_all [bodyParts]

instance : Countable WireBatch := by
  refine countable_of_parts
    (fun w => (w.version, w.id, w.sequence, w.observedAt, w.coverage, w.body)) fun a b h => ?_
  cases a
  cases b
  cases h
  rfl

instance : Countable TenantScope := by
  refine countable_of_parts (fun s => (s.tenant.toNat, s.scope.object, s.scope.registration,
    s.scope.source, s.scope.dataset, s.scope.epoch)) fun a b h => ?_
  obtain ⟨tenant, ⟨object, registration, source, dataset, epoch⟩, hne⟩ := a
  obtain ⟨tenant', ⟨object', registration', source', dataset', epoch'⟩, hne'⟩ := b
  simp only [Prod.mk.injEq] at h
  obtain ⟨htenant, rfl, rfl, rfl, rfl, rfl⟩ := h
  exact TenantScope.ext (BitVec.eq_of_toNat_eq htenant) rfl

noncomputable def batchCode : WireBatch → ℕ := Classical.choose (exists_injective_nat WireBatch)

noncomputable def scopeCode : TenantScope → ℕ := Classical.choose (exists_injective_nat TenantScope)

def hostId (value : String) (h : value ≠ "" ∧ value.utf8ByteSize ≤ 256 ∧
    value.toList.all (fun c => !isControl c) = true) : Id :=
  ⟨value, h.1, h.2.1, fun c hc => by simpa using List.all_eq_true.mp h.2.2 c hc⟩

def hostName : Id := hostId "h" (by decide)

def hostWire : WireBatch where
  version := 1
  id := hostName
  sequence := 7
  observedAt := 100
  coverage := ⟨hostName, hostName, hostName, hostName⟩
  body := .snapshot [⟨hostId "c" (by decide), some [1]⟩, ⟨hostId "r" (by decide), some []⟩]

def ascii (text : String) : List UInt8 := text.toList.map fun c => UInt8.ofNat c.toNat

/-- The report as it is written. -/
def hostText : List UInt8 :=
  123 :: (ascii "\"version\":1,\"id\":\"h\",\"sequence\":7,\"observedAt\":100," ++
    ascii "\"coverage\":\x7b\"id\":\"h\",\"version\":\"h\",\"definition\":\"h\"," ++
    ascii "\"format\":\"h\"\x7d,\"body\":\x7b\"kind\":\"snapshot\",\"data\":[" ++
    ascii "\x7b\"key\":\"c\",\"value\":[1]\x7d,\x7b\"key\":\"r\",\"value\":[]\x7d]\x7d\x7d")

theorem hostTenant_ne : (1 : Uuid) ≠ 0 := by decide

theorem guestTenant_ne : (2 : Uuid) ≠ 0 := by decide

/-- The same stream of one tenant and of another. -/
def hostScope : TenantScope :=
  ⟨1, ⟨hostName, hostName, hostName, hostName, hostName⟩, hostTenant_ne⟩

def guestScope : TenantScope := ⟨2, hostScope.scope, guestTenant_ne⟩

/-- The stream as it is written, with the last digit of its tenant. -/
def hostScopeText (digit : UInt8) : List UInt8 :=
  123 :: (ascii "\"tenant\":\"00000000-0000-0000-0000-00000000000" ++
    digit :: ascii "\",\"object\":\"h\",\"registration\":\"h\",\"source\":\"h\"," ++
    ascii "\"dataset\":\"h\",\"epoch\":\"h\"\x7d")

theorem hostScopeText_injective : Function.Injective hostScopeText := by
  intro d d' h
  unfold hostScopeText at h
  simp only [List.cons.injEq, true_and, List.append_assoc] at h
  exact (List.cons.inj (List.append_cancel_left h)).1

def hostTexts (w : WireBatch) : Option (List UInt8) := if w = hostWire then some hostText else none

def hostScopeTexts (s : TenantScope) : Option (List UInt8) :=
  if s = hostScope then some (hostScopeText 49)
  else if s = guestScope then some (hostScopeText 50)
  else none

theorem hostTexts_legible : Legible hostTexts := by
  constructor
  · intro w text h
    unfold hostTexts at h
    split at h
    · cases h
      rfl
    · cases h
  · intro w w' text h h'
    unfold hostTexts at h h'
    split at h
    · next hw =>
        split at h'
        · next hw' => exact hw.trans hw'.symm
        · cases h'
    · cases h

theorem hostScopeTexts_eq_some {s : TenantScope} {text : List UInt8}
    (h : hostScopeTexts s = some text) :
    s = hostScope ∧ text = hostScopeText 49 ∨ s = guestScope ∧ text = hostScopeText 50 := by
  unfold hostScopeTexts at h
  split at h
  · next hs => exact .inl ⟨hs, (Option.some.inj h).symm⟩
  · split at h
    · next hs => exact .inr ⟨hs, (Option.some.inj h).symm⟩
    · cases h

theorem hostScopeTexts_legible : Legible hostScopeTexts := by
  constructor
  · intro s text h
    rcases hostScopeTexts_eq_some h with ⟨-, rfl⟩ | ⟨-, rfl⟩
    · rfl
    · rfl
  · intro s s' text h h'
    rcases hostScopeTexts_eq_some h with ⟨rfl, rfl⟩ | ⟨rfl, rfl⟩
    · rcases hostScopeTexts_eq_some h' with ⟨rfl, -⟩ | ⟨-, htext⟩
      · rfl
      · exact absurd (hostScopeText_injective htext) (by decide)
    · rcases hostScopeTexts_eq_some h' with ⟨-, htext⟩ | ⟨rfl, -⟩
      · exact absurd (hostScopeText_injective htext) (by decide)
      · rfl

/-- A writer of reports and streams that writes these as they are written. -/
noncomputable def hostJson : SerdeJson where
  pieces := fun w => [sampled batchCode hostTexts w]
  fromSlice := unsampled batchCode hostTexts WireBatch.InRange
  scopeText := sampled scopeCode hostScopeTexts
  parseScope := unsampled scopeCode hostScopeTexts fun _ => True

theorem hostJson_pieces (w : WireBatch) :
    (hostJson.pieces w).flatten = sampled batchCode hostTexts w :=
  List.append_nil _

theorem hostJson_roundTrips : hostJson.RoundTrips where
  batch := by
    intro w hw
    rw [hostJson_pieces]
    exact hostTexts_legible.unsampled_sampled
      (Classical.choose_spec (exists_injective_nat WireBatch)) hw
  inRange := fun _ _ h => unsampled_property h
  scope := fun _ => hostScopeTexts_legible.unsampled_sampled
    (Classical.choose_spec (exists_injective_nat TenantScope)) trivial

theorem length_ascii (text : String) : (ascii text).length = text.length := by
  rw [ascii, List.length_map, String.length_toList]

theorem hostText_length : hostText.length ≤ maxBatch := by
  unfold hostText maxBatch
  simp only [List.length_cons, List.length_append, length_ascii]
  decide

/-- What is digested of the report under the tenant with this last digit. -/
def hostPreimage (digit : UInt8) : List UInt8 :=
  "rss-observation-v1".toUTF8.toList ++
    [hostScopeText digit, hostText].flatMap (fun bytes => beBytes 8 bytes.length ++ bytes)

/-- SHA-256 of the report under the one tenant and under the other. -/
def hostDigest (bytes : List UInt8) : List UInt8 :=
  if bytes = hostPreimage 49 then
    [5, 139, 100, 163, 17, 163, 180, 145, 30, 79, 1, 202, 26, 194, 249, 141, 225, 164, 216, 52, 104,
      185, 60, 152, 129, 216, 182, 228, 225, 11, 127, 173]
  else
    [105, 40, 111, 134, 203, 226, 79, 66, 116, 103, 132, 56, 11, 97, 99, 54, 11, 209, 126, 28, 132,
      154, 51, 177, 223, 196, 13, 4, 228, 106, 86, 213]

def hostBatch : Batch := ⟨hostWire, hostText⟩

theorem hostBatch_preimage : hostBatch.preimage hostJson hostScope = hostPreimage 49 ∧
    hostBatch.preimage hostJson guestScope = hostPreimage 50 := by
  have hhost : hostJson.scopeText hostScope = hostScopeText 49 := by
    show sampled scopeCode hostScopeTexts hostScope = _
    rw [sampled, hostScopeTexts, if_pos rfl, Option.getD_some]
  have hguest : hostJson.scopeText guestScope = hostScopeText 50 := by
    show sampled scopeCode hostScopeTexts guestScope = _
    rw [sampled, hostScopeTexts, if_neg (by decide), if_pos rfl, Option.getD_some]
  unfold Batch.preimage hostPreimage
  rw [hhost, hguest]
  exact ⟨rfl, rfl⟩

theorem hostDigest_free (h : hostDigest (hostBatch.preimage hostJson hostScope) =
    hostDigest (hostBatch.preimage hostJson guestScope)) :
    hostBatch.preimage hostJson hostScope = hostBatch.preimage hostJson guestScope := by
  obtain ⟨hhost, hguest⟩ := hostBatch_preimage
  by_cases heq : hostPreimage 50 = hostPreimage 49
  · rw [hhost, hguest, heq]
  · rw [hhost, hguest, hostDigest, if_pos rfl, hostDigest, if_neg heq] at h
    exact absurd h (by decide)

/-- The changes of the report in either order are written as the report, and its digest tells the
streams apart. -/
theorem batches_canonical_host :
    Batch.new hostJson hostName 7 100 hostWire.coverage
      (.snapshot [⟨hostId "r" (by decide), some []⟩, ⟨hostId "c" (by decide), some [1]⟩]) =
      .ok hostBatch ∧ Accepted hostJson hostBatch ∧
    hostBatch.fingerprint hostJson hostDigest hostScope ≠
      hostBatch.fingerprint hostJson hostDigest guestScope := by
  have hcanonical := batches_canonical hostJson_roundTrips hostDigest
  have hpieces : (hostJson.pieces hostWire).flatten = hostText := by
    rw [hostJson_pieces, sampled, hostTexts, if_pos rfl, Option.getD_some]
  have hbody : hostWire.body.normalize = .ok hostWire.body := by
    have hascending : Ascending (bodyChanges hostWire.body) :=
      List.pairwise_pair.mpr (by decide)
    have hbounded : Bounded true (bodyChanges hostWire.body) := by
      constructor <;> simp [bodyChanges, hostWire]
    show (normalizeChanges true (bodyChanges hostWire.body) >>= fun changes =>
      Except.ok (Body.snapshot changes)) = _
    rw [normalizeChanges_eq_ok.mpr ⟨hbounded, hascending.mergeSort_eq.symm, hascending⟩]
    rfl
  have hnew : Batch.new hostJson hostName 7 100 hostWire.coverage hostWire.body =
      .ok hostBatch := by
    have hobserved : 0 ≤ hostWire.observedAt := by decide
    refine validated_eq_ok.mpr ⟨rfl, hobserved, hostWire.body, hbody, ?_, hostText_length⟩
    rw [hostBatch, ← hpieces]
    rfl
  have haccepted : Accepted hostJson hostBatch :=
    hcanonical.2.1 _ 7 100 _ hostWire.body _ (by norm_num) (by norm_num) trivial hnew
  refine ⟨?_, haccepted, fun heq => ?_⟩
  · rw [hcanonical.1 _ _ _ _ _ hostWire.body (.snapshot (List.Perm.swap _ _ _))]
    exact hnew
  · obtain ⟨-, hscope⟩ := hcanonical.2.2.2.1 hostBatch hostBatch hostScope guestScope haccepted
      haccepted hostDigest_free heq
    exact absurd hscope (by decide)

end Rss.Observation.Encoding
