import DBPlayground.Cloud.Acks
import DBPlayground.Cloud.EpochOwnership
import DBPlayground.Lib.Effects

namespace DBPlayground.Refusals

open ByteReader Table Wire Records Keys WalCodec WalRoundTrip Program RelyGuarantee Effects Session Store
  StateStore TableWriter WalIndexer CloudSystem Log Invariant Correct Acks
  TextTable Solo SoloReads SoloWriter Progress EpochOwnership

/-- The codes by which `Import` says that it has done nothing. -/
def refusal : CloudImportCode → Bool
  | .notStarted | .invalidRequest | .fenced => true
  | _ => false

def Reads : Op → Prop
  | .metaGet _ | .openInput _ | .self | .setSelf _ => True
  | _ => False

def SameStores {ι : Type} (s t : World ι) : Prop := t.files = s.files ∧ t.entries = s.entries

/-- The result of a call of `Import` or `Publish` is not a refusal, and the
call goes on as `Publish` at most. -/
def Accepted : Outcome Call Reply → Prop
  | .done (.imported r) => refusal r.code = false
  | .done _ | .tail (.publish _ _ _) => True
  | .tail _ => False

/-- The call ends or goes on as `Publish`. -/
def Goes : Outcome Call Reply → Prop
  | .done _ | .tail (.publish _ _ _) => True
  | .tail _ => False

theorem Accepted.goes {o : Outcome Call Reply} (h : Accepted o) : Goes o := by
  cases o with
  | done r => trivial
  | tail d => cases d <;> exact h

def Answers (code : CloudImportCode) (o : Outcome Call Reply) : Prop :=
  ∃ r, o = .done (.imported r) ∧ r.code = code

theorem Answers.goes {code : CloudImportCode} {o : Outcome Call Reply} (h : Answers code o) : Goes o := by
  obtain ⟨r, rfl, _⟩ := h
  trivial

theorem Answers.accepted {code : CloudImportCode} {o : Outcome Call Reply} (h : Answers code o)
    (hcode : refusal code = false) : Accepted o := by
  obtain ⟨r, rfl, rfl⟩ := h
  exact hcode

section Programs

variable {R : Op → Prop} {α : Type} {L : α → Prop}

theorem withinM_request {o : Op} {f : Res o → StoreMethod α} (ho : R o) (h : ∀ a, WithinM R L (f a)) :
    WithinM R L (request o >>= f) := withinM_ask ho h

theorem withinM_throwIf {bad : Prop} [Decidable bad] {e : Exn} {f : Unit → StoreMethod α}
    (h : WithinM R L (f ())) : WithinM R L (throwIf bad e >>= f) := by
  unfold throwIf
  split
  · exact withinM_bind (withinM_throw e)
  · exact h

variable (t : TableDescriptor) (H : Hashes)

theorem load_reads : WithinM Reads (fun _ => True) (load t) := by
  rw [load]
  refine withinM_request trivial ?_
  intro v
  cases v with
  | none => exact withinM_pure trivial
  | some v => exact withinM_lift fun st _ => withinM_throwIf (withinM_pure trivial)

theorem loadManifest_reads (st : SequentialState) : WithinM Reads (fun _ => True) (loadManifest t st) := by
  rw [loadManifest]
  refine withinM_request trivial ?_
  intro v
  cases v with
  | none => exact withinM_throw _
  | some v => exact withinM_lift fun m _ => withinM_throwIf (withinM_pure trivial)

theorem loadBatchIndex_reads (keys : List Bytes) : WithinM Reads (fun _ => True) (loadBatchIndex t keys) := by
  induction keys with
  | nil => exact withinM_pure trivial
  | cons key keys ih =>
      rw [loadBatchIndex]
      refine withinM_request trivial ?_
      intro v
      cases v with
      | none => exact withinM_throw _
      | some v =>
          exact withinM_lift fun part _ => ih.bind fun rest _ => withinM_pure trivial

theorem loadWal_reads (seq : U64) : WithinM Reads (fun _ => True) (loadSequentialWal t H seq) := by
  rw [loadSequentialWal]
  refine withinM_lift fun path _ => withinM_request trivial ?_
  intro v
  cases v with
  | none => exact withinM_pure trivial
  | some bytes =>
      exact withinM_throwIf (withinM_lift fun wal _ => withinM_throwIf (withinM_pure trivial))

theorem scanWals_reads (seq : U64) (n : Nat) : WithinM Reads (fun _ => True) (scanWals t H seq n) := by
  induction n generalizing seq with
  | zero => exact withinM_pure trivial
  | succ n ih =>
      rw [scanWals]
      refine (loadWal_reads t H seq).bind ?_
      intro wal _
      cases wal with
      | none => exact withinM_pure trivial
      | some wal =>
          refine (ih (seq + 1)).bind ?_
          intro rest _
          cases rest with
          | none => exact withinM_pure trivial
          | some rest => exact withinM_pure trivial

theorem code_result (current : Option VersionedSequentialState) (code : CloudImportCode) :
    (result current code).code = code := by
  cases current <;> rfl

theorem answer_reads (code : CloudImportCode) (seq : U64) :
    WithinM Reads (Answers code) (answer code seq) := by
  rw [answer]
  exact withinM_request trivial fun me => withinM_pure ⟨_, rfl, code_result _ code⟩

theorem answer_accepted {code : CloudImportCode} (h : refusal code = false) (seq : U64) :
    WithinM Reads Accepted (answer code seq) :=
  (answer_reads code seq).mono (fun _ => id) fun _ ho => ho.accepted h

theorem afterCreate_accepted (b : CloudImportBatch) (wal : SequentialWal) :
    WithinM Reads Accepted (afterCreate b wal) := by
  rw [afterCreate]
  refine withinM_request trivial fun me => withinM_request trivial fun _ => ?_
  cases b.visibility with
  | deferred => exact answer_accepted rfl _
  | immediate => exact withinM_pure trivial

theorem publishLoop_accepted {seq epoch : U64} {refused : CloudImportResult} (h : refusal refused.code = false)
    (attempts : Nat) : WithinM (fun _ => True) Accepted (publishLoop t seq epoch refused attempts) := by
  have hcommitted : ∀ x : Writer, WithinM (fun _ => True) Accepted (do setSelf x; answer .committed seq) := fun x =>
    withinM_request trivial fun _ => (answer_accepted rfl seq).mono (fun _ _ => trivial) fun _ => id
  induction attempts with
  | zero => exact withinM_pure h
  | succ attempts ih =>
      rw [publishLoop]
      refine ((load_reads t).mono (fun _ _ => trivial) fun _ => id).bind ?_
      intro latest _
      cases latest with
      | none => exact withinM_pure h
      | some latest =>
          dsimp only
          split
          · exact withinM_request trivial fun me => hcommitted _
          · split
            · exact withinM_pure h
            · rw [StateStore.compareExchange, bind_assoc]
              refine withinM_throwIf ?_
              rw [bind_assoc]
              refine withinM_lift fun bytes _ => withinM_request trivial ?_
              intro r
              cases r with
              | applied version => exact withinM_request trivial fun me => hcommitted _
              | preconditionFailed | retryableConflict => exact ih

theorem publish_accepted (attempts : Nat) (seq epoch : U64) :
    WithinM (fun _ => True) Accepted (publish t attempts seq epoch) := by
  rw [publish]
  refine withinM_request trivial fun me => publishLoop_accepted t ?_ attempts
  show refusal (result _ CloudImportCode.retryableConflict).code = false
  rw [code_result]
  rfl

end Programs

variable {ι : Type} [DecidableEq ι] {P : Params ι} {i : ι} {c : Call} {s s' : World ι}

theorem perform_reads {e : Env} {o : Op} {r : Ans o} (ho : Reads o) (h : perform i c e o s = some (r, s')) :
    SameStores s s' := by
  cases o with
  | metaGet | openInput =>
      cases e with
      | answer | fault =>
          cases h
          exact ⟨rfl, rfl⟩
      | conflict | key => cases h
  | self | setSelf =>
      cases h
      exact ⟨rfl, rfl⟩
  | _ => cases ho

/-- Files do not change once they are there; nothing else is relied on. -/
def kept (P : Params ι) (i : ι) (c : Call) : Context Op Ans (World ι) :=
  ⟨(service P).exec i c, fun s t => ∀ p b, s.files p = some b → t.files p = some b, fun _ _ => True,
    fun _ => True, fun _ _ _ => id, fun h₁ h₂ p b h => h₂ p b (h₁ p b h)⟩

def Resolves (P : Params ι) (i : ι) (c : Call) (m : StoreMethod (Outcome Call Reply)) (s : World ι) : Prop :=
  Settles (kept P i c) SameStores (fun r => Goes (outcome r)) (fun r _ => Accepted (outcome r)) m s

theorem exec_reads (o : Op) (s : World ι) (r : Ans o) (s' : World ι) (ho : Reads o)
    (h : (kept P i c).exec o s r s') : SameStores s s' := by
  obtain ⟨e, h, _⟩ := h
  exact perform_reads ho h

theorem resolves_bind {α : Type} {L : α → Prop} {m : StoreMethod α} {f : α → StoreMethod (Outcome Call Reply)}
    (h : WithinM Reads L m) (hf : ∀ a, L a → ∀ s, Resolves P i c (f a) s) (s : World ι) :
    Resolves P i c (m >>= f) s := by
  refine settles_bind exec_reads h ?_ s
  intro r t hr
  cases r with
  | ok a => exact hf a (hr a rfl) t
  | error e => trivial

theorem resolves_reads {m : StoreMethod (Outcome Call Reply)} (h : WithinM Reads Goes m) (s : World ι) :
    Resolves P i c m s := by
  rw [← bind_pure m]
  refine resolves_bind h ?_ s
  exact fun o ho _ => ho

theorem resolves_answer (code : CloudImportCode) (seq : U64) (s : World ι) : Resolves P i c (answer code seq) s :=
  resolves_reads ((answer_reads code seq).mono (fun _ => id) fun _ => Answers.goes) s

theorem resolves_lift {α : Type} {x : Except Exn α} {f : α → StoreMethod (Outcome Call Reply)}
    (hf : ∀ a, x = .ok a → ∀ s, Resolves P i c (f a) s) (s : World ι) :
    Resolves P i c (Program.lift x >>= f) s :=
  resolves_bind (L := fun a => x = .ok a) (m := Program.lift x) (fun _ h => h) hf s

theorem resolves_request {o : Op} {f : Res o → StoreMethod (Outcome Call Reply)} (ho : Reads o)
    (hf : ∀ a s, Resolves P i c (f a) s) (s : World ι) : Resolves P i c (request o >>= f) s :=
  resolves_bind (L := fun _ => True) (m := request o) ⟨ho, fun _ _ _ => trivial⟩ (fun a _ => hf a) s

theorem wpm_accepted {R : Op → Prop} {m : StoreMethod (Outcome Call Reply)} (h : WithinM R Accepted m)
    (s : World ι) : wpm (kept P i c) m (fun o _ => Accepted o) (fun _ _ => True) s :=
  h.wpm (fun _ _ => trivial) (fun _ => trivial) (fun _ _ ho => ho) (fun _ _ => trivial) s

theorem wpm_post {m : StoreMethod (Outcome Call Reply)}
    (h : wpm (kept P i c) m (fun o _ => Accepted o) (fun _ _ => True) s) :
    wp (kept P i c) m (fun r _ => Accepted (outcome r)) s := by
  refine wp_mono h ?_
  intro r t _ hr
  cases r with
  | ok o => exact hr
  | error x => trivial

theorem wp_loadWal {wal : SequentialWal} {path bytes : Bytes} (hpath : sequentialWalKey P.table wal.seq = .ok path)
    (he : encodeSequentialWal P.hashes P.table.schema wal = .ok bytes) (hs : s.files path = some bytes) :
    wpm (kept P i c) (loadSequentialWal P.table P.hashes wal.seq)
      (fun o _ => ∃ landed, o = some landed ∧ landed.writerEpoch = wal.writerEpoch) (fun _ _ => True) s := by
  have hrest : WithinM Reads (fun o => ∃ landed, o = some landed ∧ landed.writerEpoch = wal.writerEpoch) (do
      throwIf (bytes.length > maxWalBytes) (.runtimeError "sequential: WAL too large" : Exn)
      let landed ← Program.lift (decodeSequentialWal P.hashes P.table.schema bytes)
      throwIf (landed.seq ≠ wal.seq ∨ landed.tableId ≠ P.table.tableId ∨ landed.schemaVersion ≠ 1)
        (.runtimeError "sequential: WAL identity mismatch" : Exn)
      pure (some landed) : StoreMethod (Option SequentialWal)) := by
    refine withinM_throwIf (withinM_lift fun landed hd => withinM_throwIf (withinM_pure ⟨landed, rfl, ?_⟩))
    obtain ⟨_, _, _, _, _, rfl⟩ := decoded_eq he hd
    rfl
  rw [loadSequentialWal, hpath]
  rintro t ht - r u ⟨e, hx, -⟩
  refine ⟨trivial, trivial, ?_⟩
  cases e with
  | answer =>
      cases hx
      rw [ht path bytes hs]
      exact hrest.wpm (fun _ _ => trivial) (fun _ => trivial) (fun _ _ h => h) (fun _ _ => trivial) _
  | fault what applied =>
      cases hx
      exact fun _ _ _ => trivial
  | conflict | key => cases hx

omit [DecidableEq ι] in
theorem checkOwn_reads (t : TableDescriptor) (H : Hashes) (bytes : Bytes) {wal landed : SequentialWal}
    (h : landed.writerEpoch = wal.writerEpoch) :
    WithinM Reads (fun o => ∀ code, o = some code → refusal code = false) (if landed.writerEpoch ≠ wal.writerEpoch then do
        let me ← self
        setSelf { me with currentState := none }
        pure (some .fenced)
      else if landed.kind ≠ .append ∨ landed.operationId ≠ wal.operationId then pure (some .retryableConflict)
      else do
        let again ← Program.lift (encodeSequentialWal H t.schema landed)
        pure (if again ≠ bytes then some .retryableConflict else none) : StoreMethod (Option CloudImportCode)) := by
  rw [if_neg (not_not_intro h)]
  split
  · refine withinM_pure ?_
    rintro _ ⟨⟩
    rfl
  · refine withinM_lift fun again _ => withinM_pure ?_
    intro code
    split
    · rintro ⟨⟩
      rfl
    · exact nofun

theorem afterConflict_accepted {b : CloudImportBatch} {wal : SequentialWal} {path bytes : Bytes}
    (hpath : sequentialWalKey P.table wal.seq = .ok path)
    (he : encodeSequentialWal P.hashes P.table.schema wal = .ok bytes) (hs : s.files path = some bytes) :
    wpm (kept P i c) (AppendSpec.afterConflict P.table P.hashes b wal bytes) (fun o _ => Accepted o)
      (fun _ _ => True) s := by
  rw [AppendSpec.afterConflict, checkLanded, bind_assoc]
  refine wpm_bind trivial (wpm_mono (wp_loadWal hpath he hs) ?_)
  rintro _ t - ⟨landed, rfl, hepoch⟩
  refine wpm_accepted ((checkOwn_reads P.table P.hashes bytes hepoch).bind (L := Accepted) ?_) t
  rintro (_ | code) hcode
  · exact afterCreate_accepted b wal
  · exact answer_accepted (hcode code rfl) 0

omit [DecidableEq ι] in
theorem afterConflict_reads (t : TableDescriptor) (H : Hashes) (b : CloudImportBatch) (wal : SequentialWal)
    (bytes : Bytes) : WithinM Reads Goes (AppendSpec.afterConflict t H b wal bytes) := by
  have hcheck : WithinM Reads (fun _ => True) (checkLanded t H wal bytes) := by
    rw [checkLanded]
    refine (loadWal_reads t H wal.seq).bind ?_
    rintro (_ | landed) -
    · exact withinM_pure trivial
    · by_cases hepoch : landed.writerEpoch = wal.writerEpoch
      · exact (checkOwn_reads t H _ hepoch).mono (fun _ => id) fun _ _ => trivial
      · dsimp only
        rw [if_pos hepoch]
        exact withinM_request trivial fun me => withinM_request trivial fun _ => withinM_pure trivial
  rw [AppendSpec.afterConflict]
  refine hcheck.bind ?_
  rintro (_ | code) -
  · exact (afterCreate_accepted b wal).mono (fun _ => id) fun _ => Accepted.goes
  · exact (answer_reads code 0).mono (fun _ => id) fun _ => Answers.goes

theorem appendBatch_resolves (b : CloudImportBatch) (nextSeq epoch : U64) (s : World ι) :
    Resolves P i c (appendBatch P.table P.hashes b nextSeq epoch) s := by
  rw [appendBatch]
  split
  · exact resolves_answer _ _ s
  · refine resolves_lift ?_ s
    intro path hpath s
    split
    · exact resolves_answer _ _ s
    · trivial
    · rename_i bytes he
      rintro t - r u ⟨e, hx, -⟩
      rcases WriteSpecs.perform_createIfAbsent (c := c) hx with ⟨_, rfl, rfl | rfl⟩ | ⟨rfl, hr, _⟩
      · exact .inr (wpm_post (wpm_accepted (afterCreate_accepted b _) _))
      · have hnew : (t.create i path bytes).files path = some bytes := by
          simp only [World.create, Function.update_self]
        exact .inr (wpm_post (afterConflict_accepted hpath he hnew))
      · refine .inl ⟨⟨rfl, rfl⟩, ?_⟩
        have hkept := resolves_reads (P := P) (i := i) (c := c)
          (afterConflict_reads P.table P.hashes b (batchWal P.table b nextSeq epoch) bytes) u
        cases r with
        | error x => trivial
        | ok r =>
            cases r with
            | created => exact absurd rfl hr
            | alreadyExists | retryableConflict => exact hkept

theorem importKnown_resolves (b : CloudImportBatch) (latest : SequentialState) (nextSeq : U64) (s : World ι) :
    Resolves P i c (importKnown P.table P.hashes b latest nextSeq) s := by
  rw [importKnown]
  refine resolves_lift (fun requestBytes _ => resolves_lift fun requested _ => ?_) s
  refine resolves_bind (loadManifest_reads _ _) fun m _ => resolves_bind (loadBatchIndex_reads _ _) fun es _ => ?_
  refine resolves_bind (scanWals_reads _ _ _ _) ?_
  rintro (_ | scanned) - s
  · exact resolves_answer _ _ s
  · dsimp only
    split
    · exact resolves_answer _ _ s
    · split
      · rw [answerKnown]
        split
        · exact resolves_answer _ _ s
        · cases b.visibility with
          | immediate => trivial
          | deferred => exact resolves_answer _ _ s
      · split
        · exact resolves_answer _ _ s
        · exact appendBatch_resolves b nextSeq latest.writerEpoch s

theorem importBatch_resolves (b : CloudImportBatch) (s : World ι) :
    Resolves P i c (importBatch P.table P.hashes b) s := by
  rw [importBatch]
  refine resolves_request (o := .self) trivial ?_ s
  intro me s
  cases me.currentState with
  | none => exact resolves_answer _ _ s
  | some current =>
      dsimp only
      split
      · exact resolves_answer _ _ s
      · refine resolves_bind (load_reads _) ?_ s
        rintro (_ | latest) - s
        · exact resolves_answer _ _ s
        · dsimp only
          split
          · exact resolves_request (o := .setSelf _) trivial (fun _ => resolves_answer _ _) s
          · exact resolves_request (o := .setSelf _) trivial (fun _ => importKnown_resolves b latest.state me.nextSeq) s

def Pending (P : Params ι) (i : ι) (c : Call) (p : Prog Op Ans (Outcome Call Reply)) (s : World ι) : Prop :=
  wp (kept P i c) p (fun o _ => Accepted o) s

theorem code_eq (r : Except Exn (Outcome Call Reply)) :
    (match r with
      | .ok o => .ret o
      | .error x => .ret (.done (.threw x)) : Prog Op Ans (Outcome Call Reply)) = .ret (outcome r) := by
  cases r <;> rfl

theorem pending_publish (b : CloudImportBatch) (seq epoch : U64) (s : World ι) :
    Pending P i (.publish b seq epoch) ((service P).code i (.publish b seq epoch)) s := by
  exact wp_bind_ret code_eq (wpm_post (wpm_accepted (publish_accepted P.table (P.attempts i) seq epoch) s))

theorem settles_import (b : CloudImportBatch) (s : World ι) :
    Settles (kept P i (.importBatch b)) SameStores Goes (fun o _ => Accepted o)
      ((service P).code i (.importBatch b)) s :=
  Settles.bind_ret code_eq (importBatch_resolves b s)

variable {x y z : Config ι Op Ans (World ι) Call Reply} {b : CloudImportBatch}

theorem Pending.tail {d : Call} (h : Pending P i c (.ret (.tail d)) s) : Pending P i d ((service P).code i d) s := by
  have hd : Accepted (.tail d) := h s (fun _ _ => id) trivial
  cases d with
  | publish b seq epoch => exact pending_publish b seq epoch s
  | _ => cases hd

theorem Pending.during (hx : Reachable P x) {p : Prog Op Ans (Outcome Call Reply)} (hi : x.thread i = .busy c p)
    (h : Pending P i c p x.store) (hxy : During (service P) i x y) :
    ∃ d q, y.thread i = .busy d q ∧ Pending P i d q y.store := by
  refine hxy.thread (T := Pending P i) (R := (kept P i c).rely) ?_ ?_ ?_ ?_ hi h
  · exact fun hp hr => wp_stable hp hr
  · exact fun {_ _ _ s _ _} hp hx => (hp s (fun _ _ => id) trivial _ _ hx).2.2
  · exact Pending.tail
  · intro y z hy hz p b hf
    exact (grow_of_steps (hx.trans hy) (.single hz)).files p b hf

theorem Pending.not_refusal {r : CloudImportResult} (hx : Reachable P x) {p : Prog Op Ans (Outcome Call Reply)}
    (hi : x.thread i = .busy c p) (h : Pending P i c p x.store) (hxy : During (service P) i x y)
    (hr : Returns y i b r) : refusal r.code = false := by
  obtain ⟨d, q, hd, hq⟩ := h.during hx hi hxy
  rcases hr with hr | ⟨seq, epoch, hr⟩
  · cases hd.symm.trans hr
    exact hq y.store (fun _ _ => id) trivial
  · cases hd.symm.trans hr
    exact hq y.store (fun _ _ => id) trivial

/-- An object busy with `Import` that has not changed the stores, or one from
which no refusal comes any more. -/
def Undecided (P : Params ι) (i : ι) (c : Call) (p : Prog Op Ans (Outcome Call Reply)) (s : World ι) : Prop :=
  Settles (kept P i c) SameStores Goes (fun o _ => Accepted o) p s ∨ Pending P i c p s

theorem undecided_during (hx : Reachable P x)
    (hi : x.thread i = .busy (.importBatch b) ((service P).code i (.importBatch b)))
    (hxy : During (service P) i x y) : ∃ d q, y.thread i = .busy d q ∧ Undecided P i d q y.store := by
  refine hxy.thread (T := Undecided P i) (R := (kept P i (.importBatch b)).rely) ?_ ?_ ?_ ?_ hi
    (.inl (settles_import b _))
  · rintro c p s t (h | h) hr
    · exact .inl (h.stable hr)
    · exact .inr (wp_stable h hr)
  · rintro c o k s r s' (h | h) hx
    · rcases h s (fun _ _ => id) r s' hx with ⟨_, h⟩ | h
      · exact .inl h
      · exact .inr h
    · exact .inr (h s (fun _ _ => id) trivial r s' hx).2.2
  · rintro c d s (h | h)
    · cases d with
      | publish b seq epoch => exact .inr (pending_publish b seq epoch s)
      | _ => cases h
    · exact .inr h.tail
  · intro y z hy hz p b hf
    exact (grow_of_steps (hx.trans hy) (.single hz)).files p b hf

/-- A call of `Import` that is going to return a refusal changes nothing: each
step that its object takes between the call and the return leaves the files
and the metadata as they are, whatever the others do. -/
theorem refusal_unchanged {w : Config ι Op Ans (World ι) Call Reply} {r : CloudImportResult} (hx : Reachable P x)
    (hi : x.thread i = .busy (.importBatch b) ((service P).code i (.importBatch b)))
    (hxy : During (service P) i x y) (hyz : Step (service P) y z) (hmove : z.thread i ≠ y.thread i)
    (hbusy : z.thread i ≠ .idle) (hzw : During (service P) i z w) (hr : Returns w i b r)
    (hcode : refusal r.code = true) :
    z.store.files = y.store.files ∧ z.store.entries = y.store.entries := by
  have hy : Reachable P y := hx.trans hxy.steps
  have hz : Reachable P z := hy.tail hyz
  have hnever : ∀ {d q}, z.thread i = .busy d q → ¬ Pending P i d q z.store := by
    intro d q hd hq
    rw [hq.not_refusal hz hd hzw hr] at hcode
    cases hcode
  obtain ⟨d, q, hd, hq⟩ := undecided_during hx hi hxy
  cases hyz with
  | call j e hj _ =>
      by_cases hij : i = j
      · subst hij
        cases hd.symm.trans hj
      · exact absurd (Function.update_of_ne hij _ _) hmove
  | request j e o k r s' hj hexec =>
      by_cases hij : i = j
      · subst hij
        cases hd.symm.trans hj
        have hnext := hnever (Function.update_self i _ _)
        rcases hq with hq | hq
        · rcases hq y.store (fun _ _ => id) r s' hexec with ⟨hsame, _⟩ | hq
          · exact hsame
          · exact absurd hq hnext
        · exact absurd (hq y.store (fun _ _ => id) trivial r s' hexec).2.2 hnext
      · exact absurd (Function.update_of_ne hij _ _) hmove
  | tail j e e' hj => exact ⟨rfl, rfl⟩
  | reply j e r hj => exact ⟨rfl, rfl⟩

theorem runs_import_fenced {t : World (Fin 3)} (text : Bytes) {v : VersionedValue} {st : SequentialState}
    (hw : t.writers 0 = startedWriter textTable 2) (hv : t.entries (currentKey textTable) = some v)
    (hd : decodeSequentialState v.value = .ok st) (hid : st.tableId = textTable.tableId) (hepoch : st.writerEpoch ≠ 1) :
    SoloRun (anyParams text) 0 (.importBatch (textBatch text)) (importBatch textTable hashes (textBatch text)) t
      (.ok (.done (.imported ⟨.fenced, 0, 0, 0⟩)))
      (t.setWriter 0 { startedWriter textTable 2 with currentState := none }) := by
  have hP : Serves (anyParams text) := serves_anyParams
  refine runs_self hP ?_
  rw [hw]
  refine runs_load hP hv hd hid rfl ?_
  dsimp only
  rw [if_pos (show st.writerEpoch ≠ (raised (initialState textTable)).writerEpoch from hepoch)]
  refine runs_setSelf hP ?_
  have hanswer : SoloRun (anyParams text) 0 (.importBatch (textBatch text)) (answer .fenced 0)
    (t.setWriter 0 { startedWriter textTable 2 with currentState := none }) _ _ := runs_answer hP
  rwa [World.setWriter_writers] at hanswer

/-- Object 1 has raised the epoch. The `Import` of object 0 reads CURRENT and is fenced. -/
theorem refusal_unchanged_fenced :
    ∃ x y z w : Config (Fin 3) Op Ans (World (Fin 3)) Call Reply, Reachable (anyParams (ascii "x")) x ∧
      During (service (anyParams (ascii "x"))) 0 x y ∧ Step (service (anyParams (ascii "x"))) y z ∧
      During (service (anyParams (ascii "x"))) 0 z w ∧ Returns w 0 (textBatch (ascii "x")) ⟨.fenced, 0, 0, 0⟩ ∧
      z.store.files = y.store.files ∧ z.store.entries = y.store.entries := by
  obtain ⟨s, fence, hx, hopen, _, _⟩ := exists_started (P := anyParams (ascii "x")) (i := 0)
    (usable_textParams serves_anyParams) rfl (by simp [anyParams, textParams])
  obtain ⟨u, b, hstart, hentries, hdec, _, _, hwriters, _, _⟩ := runs_takeover hopen
  have hx₁ := (hx.trans steps_done).trans (steps_idle (i := 1) rfl rfl rfl hstart)
  have hrun := runs_import_fenced (ascii "x") (hwriters ▸ hopen.writer)
    (by rw [hentries]; exact Function.update_self _ _ _) hdec rfl (by decide)
  have hcode : Runs (service (anyParams (ascii "x"))) 0 (.importBatch (textBatch (ascii "x"))) (.call .self _) u _ _ :=
    runs_code hrun
  have hx₂ := hx₁.tail (Step.call (S := service (anyParams (ascii "x"))) ⟨u, _⟩ 0 (.importBatch (textBatch (ascii "x")))
    rfl rfl)
  obtain ⟨z, hstep, hmove, hbusy, hrest⟩ := hcode.first
  exact ⟨_, _, z, _, hx₂, .refl, hstep, hrest, .inl replies_done,
    refusal_unchanged hx₂ (Function.update_self _ _ _) .refl hstep hmove hbusy hrest (.inl replies_done) rfl⟩

end DBPlayground.Refusals
