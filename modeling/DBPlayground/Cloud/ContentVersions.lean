import DBPlayground.Cloud.Correct
import DBPlayground.Cloud.OpaqueVersions
import DBPlayground.Cloud.TextTable
import Mathlib.Logic.Equiv.List

namespace DBPlayground.ContentVersions

open ByteReader Table Wire Records Keys WalCodec Program Session Store StateStore TableWriter WalIndexer
  SnapshotLoader CloudSystem Invariant Correct Lockstep OpaqueVersions

variable {ι : Type}

section store

variable (token : Bytes → Nat)

/-- A write of `S3MetadataStore`: the version is the ETag of the content. -/
def putTagged (w : World ι) (key value : Bytes) : World ι :=
  { w with entries := Function.update w.entries key (some ⟨value, token value⟩) }

variable [DecidableEq ι]

/-- The effect of one request where the metadata store is an `S3MetadataStore`: `PUT` with
`If-None-Match: *`, and with `If-Match` and the ETag of the expected content. -/
def performTagged (i : ι) (c : Call) (e : Env) : (o : Op) → World ι → Option (Ans o × World ι)
  | .putIfAbsent key value, w =>
    let done := if w.entries key = none then putTagged token w key value else w
    match e with
    | .answer => some (.ok (if w.entries key = none then .applied (token value) else .preconditionFailed), done)
    | .conflict applied => some (.ok .retryableConflict, if applied then done else w)
    | .fault what applied => some (.error (.runtimeError what), if applied then done else w)
    | .key _ => none
  | .compareExchange key expected value, w =>
    let ok := (w.entries key).map (·.version) = some expected
    let done := if ok then putTagged token w key value else w
    match e with
    | .answer => if ok then some (.ok (.applied (token value)), done.acquire i c value)
        else some (.ok .preconditionFailed, w)
    | .conflict applied => some (.ok .retryableConflict, if applied then done else w)
    | .fault what applied => some (.error (.runtimeError what), if applied then done else w)
    | .key _ => none
  | o, w => perform i c e o w

def taggedService (P : Params ι) : Service ι Op Ans (World ι) Env Call Reply :=
  { service P with perform := performTagged token }

end store

/-- The stores agree on everything but the versions; those of CURRENT are paired, and
those of the second store are the ETags. -/
structure SameWorld (token : Bytes → Nat) (t : TableDescriptor) (V : Pairing) (w u : World ι) : Prop where
  entries : ∀ key, Option.Rel (SameValue t key V) (w.entries key) (u.entries key)
  tags : ∀ key v, u.entries key = some v → v.version = token v.value
  files : w.files = u.files
  issued : w.issued = u.issued
  writers : ∀ i, SameWriter V (w.writers i) (u.writers i)
  incarnation : w.incarnation = u.incarnation
  created : w.created = u.created
  acquired : w.acquired = u.acquired

namespace SameWorld

variable {token : Bytes → Nat} {t : TableDescriptor} {V V' : Pairing} {w u : World ι}

theorem mono (hV : V ≤ V') (h : SameWorld token t V w u) : SameWorld token t V' w u :=
  { h with
    entries := fun key => rel_mono (fun _ _ hv => ⟨hv.value, fun hk => hV _ _ (hv.version hk)⟩) (h.entries key)
    writers := fun i => (h.writers i).mono hV }

theorem none_iff (h : SameWorld token t V w u) (key : Bytes) : w.entries key = none ↔ u.entries key = none := by
  have hk := h.entries key
  generalize w.entries key = a at hk
  generalize u.entries key = b at hk
  cases hk with
  | none => exact Iff.rfl
  | some => exact ⟨nofun, nofun⟩

theorem put (h : SameWorld token t V w u) {key value : Bytes} (hnew : key = currentKey t → V w.nextVersion (token value)) :
    SameWorld token t V (w.put key value) (putTagged token u key value) := by
  refine { h with entries := fun k => ?_, tags := fun k v hv => ?_ }
  · by_cases hk : k = key
    · subst hk
      simp only [World.put, putTagged, Function.update_self]
      exact .some ⟨rfl, hnew⟩
    · simp only [World.put, putTagged, Function.update_of_ne hk]
      exact h.entries k
  · by_cases hk : k = key
    · subst hk
      simp only [putTagged, Function.update_self, Option.some.injEq] at hv
      subst hv
      rfl
    · simp only [putTagged, Function.update_of_ne hk] at hv
      exact h.tags k v hv

theorem acquire (h : SameWorld token t V w u) {i : ι} {c : Call} {value : Bytes} :
    SameWorld token t V (w.acquire i c value) (u.acquire i c value) := by
  unfold World.acquire
  split
  · refine { h with acquired := ?_ }
    show w.acquired ++ _ = u.acquired ++ _
    rw [h.acquired, h.incarnation]
  · exact h

end SameWorld

section requests

variable {token : Bytes → Nat} {t : TableDescriptor} {V : Pairing} {w u : World ι}

/-- Answers and stores after a request that agree once the version of CURRENT is paired. -/
def Agrees (token : Bytes → Nat) (t : TableDescriptor) (V : Pairing) (o o' : Op)
    (x : Ans o × World ι) (y : Ans o' × World ι) :
    Prop :=
  ∀ V', V ≤ V' → (∀ v, x.2.entries (currentKey t) = some v → V' v.version (token v.value)) →
    Results (fun V => SameRes t V o o') V' x.1 y.1 ∧ SameWorld token t V' x.2 y.2

theorem SameWorld.write (h : SameWorld token t V w u) {key value : Bytes} {p q : Prop} [Decidable p] [Decidable q]
    (hpq : p ↔ q) {V' : Pairing} (hV : V ≤ V')
    (hnew : ∀ v, (if p then w.put key value else w).entries (currentKey t) = some v → V' v.version (token v.value)) :
    SameWorld token t V' (if p then w.put key value else w) (if q then putTagged token u key value else u) := by
  by_cases hp : p
  · rw [if_pos hp] at hnew ⊢
    rw [if_pos (hpq.mp hp)]
    refine (h.mono hV).put fun hk => hnew ⟨value, w.nextVersion⟩ ?_
    rw [← hk]
    exact WriteSpecs.put_entries
  · rw [if_neg hp, if_neg fun hq => hp (hpq.mpr hq)]
    exact h.mono hV

theorem acquire_entries (w : World ι) {i : ι} {c : Call} {value : Bytes} : (w.acquire i c value).entries = w.entries := by
  unfold World.acquire
  split <;> rfl

variable [DecidableEq ι] {o o' : Op} {i : ι} {c : Call} {e : Env}

theorem perform_same (h : SameWorld token t V w u) (ho : SameOp t V o o')
    (hcas : ∀ n m, V n m → ((w.entries (currentKey t)).map (·.version) = some n ↔
      (u.entries (currentKey t)).map (·.version) = some m)) :
    Option.Rel (Agrees token t V o o') (perform i c e o w) (performTagged token i c e o' u) := by
  cases ho with
  | metaGet key =>
      cases e with
      | answer => exact .some fun V' hV _ => ⟨.ok ((h.mono hV).entries key), h.mono hV⟩
      | fault what applied => exact .some fun V' hV _ => ⟨.error _, h.mono hV⟩
      | conflict | key => exact .none
  | putIfAbsent key value =>
      have hiff := h.none_iff key
      cases e with
      | answer =>
          refine .some fun V' hV hnew => ⟨.ok ?_, h.write hiff hV hnew⟩
          by_cases hn : w.entries key = none
          · rw [if_pos hn, if_pos (hiff.mp hn)]
            exact .applied _ _
          · rw [if_neg hn, if_neg fun hu => hn (hiff.mpr hu)]
            exact .preconditionFailed
      | conflict applied =>
          cases applied with
          | false => exact .some fun V' hV _ => ⟨.ok .retryableConflict, h.mono hV⟩
          | true => exact .some fun V' hV hnew => ⟨.ok .retryableConflict, h.write hiff hV hnew⟩
      | fault what applied =>
          cases applied with
          | false => exact .some fun V' hV _ => ⟨.error _, h.mono hV⟩
          | true => exact .some fun V' hV hnew => ⟨.error _, h.write hiff hV hnew⟩
      | key k => exact .none
  | @compareExchange n m value hnm =>
      have hiff := hcas n m hnm
      cases e with
      | answer =>
          simp only [perform, performTagged]
          by_cases hn : (w.entries (currentKey t)).map (·.version) = some n
          · rw [if_pos hn, if_pos (hiff.mp hn), if_pos hn, if_pos (hiff.mp hn)]
            refine .some fun V' hV hnew => ?_
            have hat : ((w.put (currentKey t) value).acquire i c value).entries (currentKey t) =
                some ⟨value, w.nextVersion⟩ := (congrFun (acquire_entries _) _).trans WriteSpecs.put_entries
            have hpair := hnew _ hat
            exact ⟨.ok (.applied hpair), ((h.mono hV).put fun _ => hpair).acquire⟩
          · rw [if_neg hn, if_neg fun hu => hn (hiff.mpr hu)]
            exact .some fun V' hV _ => ⟨.ok .preconditionFailed, h.mono hV⟩
      | conflict applied =>
          cases applied with
          | false => exact .some fun V' hV _ => ⟨.ok .retryableConflict, h.mono hV⟩
          | true => exact .some fun V' hV hnew => ⟨.ok .retryableConflict, h.write hiff hV hnew⟩
      | fault what applied =>
          cases applied with
          | false => exact .some fun V' hV _ => ⟨.error _, h.mono hV⟩
          | true => exact .some fun V' hV hnew => ⟨.error _, h.write hiff hV hnew⟩
      | key k => exact .none
  | openInput path =>
      cases e with
      | answer => exact .some fun V' hV _ => ⟨.ok (congrFun h.files path), h.mono hV⟩
      | fault what applied => exact .some fun V' hV _ => ⟨.error _, h.mono hV⟩
      | conflict | key => exact .none
  | createIfAbsent path bytes =>
      have hdone : ∀ V', V ≤ V' → SameWorld token t V' (if w.files path = none then w.create i path bytes else w)
          (if u.files path = none then u.create i path bytes else u) := by
        intro V' hV
        rw [← h.files]
        split
        · refine { h.mono hV with files := ?_, created := ?_ }
          · simp only [World.create, h.files]
          · simp only [World.create, h.created, h.incarnation]
        · exact h.mono hV
      cases e with
      | answer =>
          refine .some fun V' hV _ => ⟨.ok ?_, hdone V' hV⟩
          rw [← h.files]
          rfl
      | conflict applied =>
          cases applied with
          | false => exact .some fun V' hV _ => ⟨.ok rfl, h.mono hV⟩
          | true => exact .some fun V' hV _ => ⟨.ok rfl, hdone V' hV⟩
      | fault what applied => exact .some fun V' hV _ => ⟨.error _, h.mono hV⟩
      | key k => exact .none
  | writeFile path bytes =>
      have hdone : ∀ V', V ≤ V' → SameWorld token t V' (w.write path bytes) (u.write path bytes) := by
        intro V' hV
        refine { h.mono hV with files := ?_ }
        simp only [World.write, h.files]
      cases e with
      | answer => exact .some fun V' hV _ => ⟨.ok trivial, hdone V' hV⟩
      | fault what applied =>
          cases applied with
          | false => exact .some fun V' hV _ => ⟨.error _, h.mono hV⟩
          | true => exact .some fun V' hV _ => ⟨.error _, hdone V' hV⟩
      | conflict | key => exact .none
  | newDataFileKey =>
      cases e with
      | key k =>
          simp only [perform, performTagged, ← h.issued]
          split
          · refine .some fun V' hV _ => ⟨.ok rfl, { h.mono hV with issued := ?_ }⟩
            simp only [World.issue, h.issued]
          · exact .none
      | answer | conflict | fault => exact .none
  | newManifestKey =>
      cases e with
      | key k => exact .some fun V' hV _ => ⟨.ok rfl, h.mono hV⟩
      | answer | conflict | fault => exact .none
  | self => exact .some fun V' hV _ => ⟨.ok ((h.mono hV).writers i), h.mono hV⟩
  | setSelf hx =>
      refine .some fun V' hV _ => ⟨.ok trivial, { h.mono hV with writers := fun j => ?_ }⟩
      by_cases hj : j = i
      · subst hj
        simp only [World.setWriter_writers]
        exact hx.mono hV
      · simp only [World.setWriter, Function.update_of_ne hj]
        exact (h.writers j).mono hV

end requests

variable [DecidableEq ι]

section runs

variable {P : Params ι} {x y z : Config ι Op Ans (World ι) Call Reply}

theorem advance_of_steps (h : Reachable P x) (hs : Steps (service P) x y) : Advance P x.store y.store :=
  (good_of_reachable h).evolves (P := Advance P) Advance.refl Advance.trans Guar.advance hs

theorem current_eq_iff (h : Reachable P x) (hs : Steps (service P) x y) {v v' : VersionedValue}
    (hv : x.store.entries (currentKey P.table) = some v) (hv' : y.store.entries (currentKey P.table) = some v') :
    (v'.version = v.version ↔ v'.value = v.value) := by
  obtain ⟨u, hu, hl⟩ := advance_of_steps h hs v hv
  rw [hv'] at hu
  cases hu
  rcases hl with rfl | ⟨st, st', hd, hd', hlt⟩
  · exact iff_of_true rfl rfl
  · have hne : v' ≠ v := by
      rintro rfl
      rw [hd] at hd'
      cases hd'
      exact Nat.lt_irrefl _ hlt
    obtain ⟨u, hu, hlater⟩ := (grow_of_steps h hs).current v hv
    rw [hv'] at hu
    cases hu
    refine iff_of_false (fun he => hne (hlater.same he)) fun he => ?_
    rw [he, hd] at hd'
    cases hd'
    exact Nat.lt_irrefl _ hlt

end runs

def anyAnswer (P : Params ι) : Params ι := { P with allow := fun _ _ _ _ _ => true }

section simulation

variable (token : Bytes → Nat) (P : Params ι)

/-- The pairs of versions that the writes of CURRENT up to a state have in the two stores. -/
def Past (x : Config ι Op Ans (World ι) Call Reply) : Pairing := fun n m =>
  ∃ z v, Reachable (anyAnswer P) z ∧ Steps (service (anyAnswer P)) z x ∧
    z.store.entries (currentKey P.table) = some v ∧ v.version = n ∧ token v.value = m

inductive SameThread (t : TableDescriptor) (V : Pairing) : Thread Op Ans Call Reply → Thread Op Ans Call Reply → Prop
  | idle : SameThread t V .idle .idle
  | busy (c) {p p'} (h : Related (bridge t) SameOutcome V p p') : SameThread t V (.busy c p) (.busy c p')

/-- A state with counted versions, and the same state with versions that are ETags. -/
structure Matches (x y : Config ι Op Ans (World ι) Call Reply) : Prop where
  reachable : Reachable (anyAnswer P) x
  store : SameWorld token P.table (Past token P x) x.store y.store
  thread : ∀ i, SameThread P.table (Past token P x) (x.thread i) (y.thread i)

variable {token P}

omit [DecidableEq ι] in
theorem SameThread.mono {V V' : Pairing} {a b : Thread Op Ans Call Reply} (hV : V ≤ V') (h : SameThread P.table V a b) :
    SameThread P.table V' a b := by
  cases h with
  | idle => exact .idle
  | busy c h => exact .busy c (h.mono (fun _ _ _ _ hV h => h.mono hV) (fun _ _ _ _ hV h => h.mono hV) hV)

variable {x x' y y' : Config ι Op Ans (World ι) Call Reply}

theorem past_step (hs : Step (service (anyAnswer P)) x x') : Past token P x ≤ Past token P x' := by
  rintro n m ⟨z, v, hz, hzx, hv⟩
  exact ⟨z, v, hz, hzx.tail hs, hv⟩

theorem Matches.decides (ht : Function.Injective token) (hm : Matches token P x y) {n m : Nat} (hnm : Past token P x n m) :
    (x.store.entries (currentKey P.table)).map (·.version) = some n ↔
      (y.store.entries (currentKey P.table)).map (·.version) = some m := by
  obtain ⟨z, v, hz, hzx, hv, rfl, rfl⟩ := hnm
  obtain ⟨v', hv', _⟩ := (grow_of_steps hz hzx).current v hv
  have hiff := current_eq_iff hz hzx hv hv'
  have hcur := hm.store.entries (currentKey P.table)
  rw [show x.store.entries (currentKey P.table) = some v' from hv'] at hcur ⊢
  generalize hu : y.store.entries (currentKey P.table) = b at hcur ⊢
  cases hcur with
  | @some _ u h =>
      have htag := hm.store.tags _ u hu
      rw [Option.map_some, Option.map_some, Option.some.injEq, Option.some.injEq, htag, ← h.value, hiff]
      exact ⟨fun he => congrArg token he, fun he => ht he⟩

omit [DecidableEq ι] in
theorem SameWorld.enter [DecidableEq ι] {t : TableDescriptor} {V : Pairing} {w u : World ι} (h : SameWorld token t V w u)
    (i : ι) (c : Call) : SameWorld token t V (w.enter i c) (u.enter i c) := by
  have hcs := (h.writers i).currentState
  unfold World.enter
  generalize (w.writers i).currentState = cs at hcs
  generalize (u.writers i).currentState = cs' at hcs
  cases hcs with
  | some => cases c <;> exact h
  | none =>
      cases c with
      | start =>
          refine { h with incarnation := ?_ }
          simp only [h.incarnation]
      | _ => exact h

section steps

variable (hm : Matches token P x y) {i : ι} {c : Call}

include hm

theorem Matches.update {s u : World ι} {a b : Thread Op Ans Call Reply}
    (hs : Step (service (anyAnswer P)) x ⟨s, Function.update x.thread i a⟩)
    (hstore : SameWorld token P.table (Past token P ⟨s, Function.update x.thread i a⟩) s u)
    (hab : SameThread P.table (Past token P ⟨s, Function.update x.thread i a⟩) a b) :
    Matches token P ⟨s, Function.update x.thread i a⟩ ⟨u, Function.update y.thread i b⟩ := by
  refine ⟨hm.reachable.tail hs, hstore, fun j => ?_⟩
  by_cases hj : j = i
  · subst hj
    simp only [Function.update_self]
    exact hab
  · simp only [Function.update_of_ne hj]
    exact (hm.thread j).mono (past_step hs)

theorem Matches.call (hx : x.thread i = .idle) (hy : y.thread i = .idle) (hc : (service P).entry i c = true) :
    ∃ x' y', Step (service (anyAnswer P)) x x' ∧ Step (taggedService token (anyAnswer P)) y y' ∧ Matches token P x' y' ∧
      x' = ⟨x.store.enter i c, Function.update x.thread i (.busy c ((service P).code i c))⟩ ∧
      y' = ⟨y.store.enter i c, Function.update y.thread i (.busy c ((service P).code i c))⟩ := by
  have hs := Step.call (S := service (anyAnswer P)) x i c hx hc
  refine ⟨_, _, hs, .call y i c hy hc, hm.update hs ?_ (.busy c (code_same P i c _)), rfl, rfl⟩
  exact (hm.store.mono (past_step hs)).enter i c

theorem Matches.request (ht : Function.Injective token) {o o' : Op} {k : Ans o → Prog Op Ans (Outcome Call Reply)}
    {k' : Ans o' → Prog Op Ans (Outcome Call Reply)} (hx : x.thread i = .busy c (.call o k))
    (hy : y.thread i = .busy c (.call o' k')) (ho : SameOp P.table (Past token P x) o o')
    (hk : ∀ V, Past token P x ≤ V → ∀ r r', (bridge P.table).ans V o o' r r' →
      Related (bridge P.table) SameOutcome V (k r) (k' r')) (e : Env) :
    Option.Rel (fun a b => Step (service (anyAnswer P)) x ⟨a.2, Function.update x.thread i (.busy c (k a.1))⟩ ∧
        Step (taggedService token (anyAnswer P)) y ⟨b.2, Function.update y.thread i (.busy c (k' b.1))⟩ ∧
        Matches token P ⟨a.2, Function.update x.thread i (.busy c (k a.1))⟩
          ⟨b.2, Function.update y.thread i (.busy c (k' b.1))⟩)
      (perform i c e o x.store) (performTagged token i c e o' y.store) := by
  have hrel := perform_same (i := i) (c := c) (e := e) hm.store ho fun n m hnm => hm.decides ht hnm
  generalize ha : perform i c e o x.store = a at hrel
  generalize hb : performTagged token i c e o' y.store = b at hrel
  cases hrel with
  | none => exact .none
  | @some a b hab =>
      have hs : Step (service (anyAnswer P)) x ⟨a.2, Function.update x.thread i (.busy c (k a.1))⟩ :=
        .request x i c o k a.1 a.2 hx ⟨e, ha, rfl⟩
      have hs' : Step (taggedService token (anyAnswer P)) y ⟨b.2, Function.update y.thread i (.busy c (k' b.1))⟩ :=
        .request y i c o' k' b.1 b.2 hy ⟨e, hb, rfl⟩
      have hle : Past token P x ≤ Past token P _ := past_step hs
      obtain ⟨hans, hworld⟩ := hab _ hle fun v hv => ⟨_, v, hm.reachable.tail hs, .refl, hv, rfl, rfl⟩
      exact .some ⟨hs, hs', hm.update hs hworld (.busy c (hk _ hle _ _ hans))⟩

end steps

theorem Matches.forward (ht : Function.Injective token) (hm : Matches token P x y) (hs : Step (service (anyAnswer P)) x x') :
    ∃ y', Step (taggedService token (anyAnswer P)) y y' ∧ Matches token P x' y' := by
  cases hs with
  | call i c hi hc =>
      have hthread := hm.thread i
      rw [hi] at hthread
      generalize hy : y.thread i = b at hthread
      cases hthread with
      | idle =>
          obtain ⟨_, y', _, hs', hm', rfl, _⟩ := hm.call hi hy hc
          exact ⟨y', hs', hm'⟩
  | request i c o k r s' hi hx =>
      obtain ⟨e, hp, _⟩ := hx
      have hthread := hm.thread i
      rw [hi] at hthread
      generalize hy : y.thread i = b at hthread
      cases hthread with
      | busy _ h =>
          cases h with
          | call ho hk =>
              have hrel := hm.request ht hi hy ho hk e
              rw [show perform i c e o x.store = some (r, s') from hp] at hrel
              generalize performTagged token i c e _ y.store = b at hrel
              cases hrel with
              | some h => exact ⟨_, h.2.1, h.2.2⟩
  | tail i c d hi =>
      have hs := Step.tail (S := service (anyAnswer P)) x i c d hi
      have hthread := hm.thread i
      rw [hi] at hthread
      generalize hy : y.thread i = b at hthread
      cases hthread with
      | busy _ h =>
          cases h with
          | ret h =>
              cases h with
              | tail => exact ⟨_, .tail y i c d hy, hm.update hs (hm.store.mono (past_step hs))
                  (.busy d (code_same P i d _))⟩
  | reply i c r hi =>
      have hs := Step.reply (S := service (anyAnswer P)) x i c r hi
      have hthread := hm.thread i
      rw [hi] at hthread
      generalize hy : y.thread i = b at hthread
      cases hthread with
      | busy _ h =>
          cases h with
          | ret h =>
              cases h with
              | done h => exact ⟨_, .reply y i c _ hy, hm.update hs (hm.store.mono (past_step hs)) .idle⟩

theorem Matches.backward (ht : Function.Injective token) (hm : Matches token P x y)
    (hs : Step (taggedService token (anyAnswer P)) y y') :
    ∃ x', Step (service (anyAnswer P)) x x' ∧ Matches token P x' y' := by
  cases hs with
  | call i c hi hc =>
      have hthread := hm.thread i
      rw [hi] at hthread
      generalize hx : x.thread i = a at hthread
      cases hthread with
      | idle =>
          obtain ⟨x', _, hs', _, hm', _, rfl⟩ := hm.call hx hi hc
          exact ⟨x', hs', hm'⟩
  | request i c o k r s' hi hy =>
      obtain ⟨e, hp, _⟩ := hy
      have hthread := hm.thread i
      rw [hi] at hthread
      generalize hx : x.thread i = a at hthread
      cases hthread with
      | busy _ h =>
          cases h with
          | call ho hk =>
              have hrel := hm.request ht hx hi ho hk e
              rw [show performTagged token i c e o y.store = some (r, s') from hp] at hrel
              generalize perform i c e _ x.store = a at hrel
              cases hrel with
              | some h => exact ⟨_, h.1, h.2.2⟩
  | tail i c d hi =>
      have hthread := hm.thread i
      rw [hi] at hthread
      generalize hx : x.thread i = a at hthread
      cases hthread with
      | busy _ h =>
          cases h with
          | ret h =>
              cases h with
              | tail =>
                  have hs := Step.tail (S := service (anyAnswer P)) x i c d hx
                  exact ⟨_, hs, hm.update hs (hm.store.mono (past_step hs)) (.busy d (code_same P i d _))⟩
  | reply i c r hi =>
      have hthread := hm.thread i
      rw [hi] at hthread
      generalize hx : x.thread i = a at hthread
      cases hthread with
      | busy _ h =>
          cases h with
          | ret h =>
              cases h with
              | done h =>
                  have hs := Step.reply (S := service (anyAnswer P)) x i c _ hx
                  exact ⟨_, hs, hm.update hs (hm.store.mono (past_step hs)) .idle⟩

theorem matches_initial (token : Bytes → Nat) (P : Params ι) : Matches token P initial initial where
  reachable := .refl
  store := {
    entries := fun _ => .none
    tags := nofun
    files := rfl
    issued := rfl
    writers := fun _ => ⟨.none, rfl⟩
    incarnation := rfl
    created := rfl
    acquired := rfl }
  thread _ := .idle

def WritesCurrent (P : Params ι) (x y : Config ι Op Ans (World ι) Call Reply) (v : VersionedValue) : Prop :=
  y.store.entries (currentKey P.table) = some v ∧ x.store.entries (currentKey P.table) ≠ some v

theorem writes_differ (hx : Reachable P x) (hs : Step (service P) x x') (hxy : Steps (service P) x' y)
    (hs' : Step (service P) y y') {v v' : VersionedValue} (hv : WritesCurrent P x x' v) (hv' : WritesCurrent P y y' v') :
    v.value ≠ v'.value := by
  intro he
  have hx' : Reachable P x' := hx.tail hs
  have hy : Reachable P y := hx'.trans hxy
  obtain ⟨u, hu, hvu⟩ := (grow_of_steps hx' hxy).current v hv.1
  obtain ⟨u', hu', huv⟩ := (grow_of_steps hy (.single hs')).current u hu
  rw [hv'.1] at hu'
  cases hu'
  have hversion := (current_eq_iff hx' (hxy.tail hs') hv.1 hv'.1).mpr he.symm
  have h₁ := hvu.version
  have h₂ := huv.version
  have hsame : v' = u := huv.same (by omega)
  rw [hsame] at hv'
  exact hv'.2 hu

/-- Two writes of CURRENT in a run never have the same bytes, and a store whose versions
are an injective function of the contents runs in step with the store that counts: the
same requests are made in the same order, and each compare-and-swap has the same answer. -/
theorem content_versions (ht : Function.Injective token) (P : Params ι) :
    (∀ x x' y y' v v', Reachable P x → Step (service P) x x' → Steps (service P) x' y → Step (service P) y y' →
      WritesCurrent P x x' v → WritesCurrent P y y' v' → v.value ≠ v'.value) ∧
    Matches token P initial initial ∧
    ∀ x y, Matches token P x y →
      (∀ x', Step (service (anyAnswer P)) x x' →
        ∃ y', Step (taggedService token (anyAnswer P)) y y' ∧ Matches token P x' y') ∧
      (∀ y', Step (taggedService token (anyAnswer P)) y y' →
        ∃ x', Step (service (anyAnswer P)) x x' ∧ Matches token P x' y') ∧
      ∀ i c key n value k, x.thread i = .busy c (.call (.compareExchange key n value) k) →
        ∃ m k', y.thread i = .busy c (.call (.compareExchange key m value) k') ∧
          ((x.store.entries key).map (·.version) = some n ↔ (y.store.entries key).map (·.version) = some m) := by
  refine ⟨fun x x' y y' v v' hx hs hxy hs' hv hv' => writes_differ hx hs hxy hs' hv hv', matches_initial token P,
    fun x y hm => ⟨fun x' hs => hm.forward ht hs, fun y' hs => hm.backward ht hs, ?_⟩⟩
  intro i c key n value k hx
  have hthread := hm.thread i
  rw [hx] at hthread
  generalize y.thread i = b at hthread ⊢
  cases hthread with
  | busy _ h =>
      cases h with
      | call ho hk =>
          cases ho with
          | compareExchange _ hnm => exact ⟨_, _, rfl, hm.decides ht hnm⟩

/-- A table with one batch, as it is in a store with ETags. -/
theorem text_content_versions : ∃ token, Function.Injective token ∧
    ∃ x y, Steps (taggedService token (TextTable.anyParams (ascii "x"))) initial y ∧
      Matches token (TextTable.anyParams (ascii "x")) x y ∧ y.store.created.length = 2 := by
  have : Countable Byte := Function.Injective.countable (f := BitVec.toNat) fun _ _ h => BitVec.eq_of_toNat_eq h
  obtain ⟨token, ht⟩ := exists_injective_nat Bytes
  obtain ⟨_, hstart, hgo⟩ := content_versions ht (TextTable.anyParams (ascii "x"))
  obtain ⟨s, fence, d, hx, hc⟩ := TextTable.exists_committed_text (ascii "x") (by decide) TextTable.serves_anyParams
  have hmatch : ∀ x, Reachable (TextTable.anyParams (ascii "x")) x →
      ∃ y, Steps (taggedService token (TextTable.anyParams (ascii "x"))) initial y ∧
        Matches token (TextTable.anyParams (ascii "x")) x y := by
    intro x hx
    induction hx with
    | refl => exact ⟨initial, .refl, hstart⟩
    | tail _ hs ih =>
        obtain ⟨y, hy, hm⟩ := ih
        obtain ⟨y', hy', hm'⟩ := (hgo _ y hm).1 _ hs
        exact ⟨y', hy.tail hy', hm'⟩
  obtain ⟨y, hy, hm⟩ := hmatch _ hx
  refine ⟨token, ht, _, y, hy, hm, ?_⟩
  rw [← hm.store.created]
  exact congrArg List.length hc.log

end simulation

end DBPlayground.ContentVersions
