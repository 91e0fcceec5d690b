import DBPlayground.Cloud.WalLimits

namespace DBPlayground.WalDigest

open ByteReader Table Wire Records WalCodec WalRoundTrip

variable {schema : Schema}

/-- Entries are self-delimiting: their length field says where the next begins. -/
def getEntryBytes : Reader Exn (Nat × Bytes) := do
  let rows ← getU32
  let size ← getU32
  let p ← getRaw size
  pure (rows, p)

theorem reads_entry {n : Nat} {p : Bytes} (hn : n < 2 ^ 32) (hp : p.length < 2 ^ 32) :
    Reads getEntryBytes (entry n p.length p) (n, p) :=
  (reads_u32 hn).bind ((reads_u32 hp).bind ((reads_raw rfl).map fun p => (n, p)))

def Delimited (e : Bytes) : Prop :=
  ∃ n p, n < 2 ^ 32 ∧ p.length < 2 ^ 32 ∧ e = entry n p.length p

theorem flatten_entries {es fs : List Bytes} (he : ∀ e ∈ es, Delimited e) (hf : ∀ f ∈ fs, Delimited f)
    (h : es.flatten = fs.flatten) : es = fs := by
  have nonempty : ∀ {e : Bytes} {l : List Bytes}, Delimited e → ¬ e ++ l.flatten = [] := by
    rintro e l ⟨n, p, _, _, rfl⟩ hnil
    have hlen := congrArg List.length hnil
    simp [entry, u32] at hlen
  induction es generalizing fs with
  | nil =>
      cases fs with
      | nil => rfl
      | cons f fs => exact absurd h.symm (nonempty (hf f List.mem_cons_self))
  | cons e es ih =>
      cases fs with
      | nil => exact absurd h (nonempty (he e List.mem_cons_self))
      | cons f fs =>
          obtain ⟨n, p, hn, hp, rfl⟩ := he e List.mem_cons_self
          obtain ⟨m, q, hm, hq, rfl⟩ := hf f List.mem_cons_self
          obtain ⟨heq, hrest⟩ := (reads_entry hn hp).unique (reads_entry hm hq) h
          cases heq
          rw [ih (fun x hx => he x (List.mem_cons_of_mem _ hx)) (fun x hx => hf x (List.mem_cons_of_mem _ hx))
            hrest]

theorem rebuild_of_entry {c d : Chunk} {e : Bytes} (hc : chunkEntry schema c = .ok e)
    (hd : chunkEntry schema d = .ok e) (hs : ∀ p, payload schema c = .ok p → p.length < 2 ^ 32)
    (hs' : ∀ p, payload schema d = .ok p → p.length < 2 ^ 32) : rebuild schema c = rebuild schema d := by
  obtain ⟨hfc, hnc, p, hp, rfl⟩ := chunkEntry_ok hc
  obtain ⟨hfd, hnd, q, hq, heq⟩ := chunkEntry_ok hd
  obtain ⟨hpair, _⟩ := (reads_entry hnc (hs p hp)).unique (s := []) (t := [])
    (reads_entry hnd (hs' q hq)) (by rw [heq])
  obtain ⟨hrows, hpay⟩ := Prod.mk.inj hpair
  subst hpay
  have h₁ := reads_payload hfc hp []
  have h₂ := reads_payload hfd hq []
  rw [hrows, h₂] at h₁
  simp only [rebuild, Except.ok.injEq, Prod.mk.injEq, and_true] at h₁ ⊢
  rw [Chunk.mk.injEq]
  exact ⟨rfl, h₁.symm, hrows⟩

theorem rebuild_of_entries {cs ds : List Chunk} {es : List Bytes}
    (hc : List.Forall₂ (fun c e => chunkEntry schema c = .ok e) cs es)
    (hd : List.Forall₂ (fun c e => chunkEntry schema c = .ok e) ds es)
    (hs : ∀ c ∈ cs, ∀ p, payload schema c = .ok p → p.length < 2 ^ 32)
    (hs' : ∀ c ∈ ds, ∀ p, payload schema c = .ok p → p.length < 2 ^ 32) :
    cs.map (rebuild schema) = ds.map (rebuild schema) := by
  induction hc generalizing ds with
  | nil =>
      cases hd
      rfl
  | @cons c e cs es hce _ ih =>
      cases hd with
      | @cons d _ ds _ hde hd =>
          rw [List.map_cons, List.map_cons, rebuild_of_entry hce hde (hs c List.mem_cons_self)
            (hs' d List.mem_cons_self), ih hd (fun x hx => hs x (List.mem_cons_of_mem _ hx))
            (fun x hx => hs' x (List.mem_cons_of_mem _ hx))]

theorem delimited_entries {cs : List Chunk} {es : List Bytes}
    (hc : List.Forall₂ (fun c e => chunkEntry schema c = .ok e) cs es)
    (hs : ∀ c ∈ cs, ∀ p, payload schema c = .ok p → p.length < 2 ^ 32) : ∀ e ∈ es, Delimited e := by
  induction hc with
  | nil => simp
  | @cons c e cs es hce _ ih =>
      intro f hf
      rcases List.mem_cons.mp hf with rfl | hf
      · obtain ⟨_, hn, p, hp, rfl⟩ := chunkEntry_ok hce
        exact ⟨_, p, hn, hs c List.mem_cons_self p hp, rfl⟩
      · exact ih (fun x hx => hs x (List.mem_cons_of_mem _ hx)) f hf

theorem logical_injective {v : U64} {ids ids' : List Bytes} {a a' : Bytes} {cs ds : List Chunk}
    {es fs : List Bytes} (hi : putStrings ids = .ok a) (hi' : putStrings ids' = .ok a')
    (hc : List.Forall₂ (fun c e => chunkEntry schema c = .ok e) cs es)
    (hd : List.Forall₂ (fun c e => chunkEntry schema c = .ok e) ds fs)
    (hs : ∀ c ∈ cs, ∀ p, payload schema c = .ok p → p.length < 2 ^ 32)
    (hs' : ∀ c ∈ ds, ∀ p, payload schema c = .ok p → p.length < 2 ^ 32)
    (h : logical v a es = logical v a' fs) :
    ids = ids' ∧ cs.map (rebuild schema) = ds.map (rebuild schema) := by
  have hbody := List.append_cancel_left h
  obtain ⟨hids, hrest⟩ := (reads_putStrings hi).unique (reads_putStrings hi') hbody
  have hes := flatten_entries (delimited_entries hc hs) (delimited_entries hd hs') hrest
  subst hes
  exact ⟨hids, rebuild_of_entries hc hd hs hs'⟩

theorem rows_of_rebuild {c : Chunk} {e : Bytes} (hc : chunkEntry schema c = .ok e)
    (hs : ∀ p, payload schema c = .ok p → p.length < 2 ^ 32) : (rebuild schema c).rows = c.rows := by
  obtain ⟨hf, _, p, hp, _⟩ := chunkEntry_ok hc
  exact rows_rebuild hf hp (hs p hp)

end DBPlayground.WalDigest
