import DBPlayground.Format.FastPath

namespace DBPlayground.Format

open ByteReader Table

variable {file : Bytes} {schema : Schema} {projection : List Int}

section Footer

def colCount (footer : Bytes) : Nat := leNat ((footer.drop 8).take 8)

theorem takes_u64 : Takes .outOfBounds getU64 8 := (Takes.le Failure.outOfBounds 8).map (BitVec.ofNat 64)

theorem takes_meta : Takes .outOfBounds getMeta 34 :=
  (Takes.byte _).bind fun _ => (Takes.byte _).bind fun _ => takes_u64.bind fun _ => takes_u64.bind fun _ =>
    takes_u64.bind fun _ => takes_u64.map _

theorem getU64_eq {s : Bytes} (h : 8 ≤ s.length) : getU64 s = .ok (BitVec.ofNat 64 (leNat (s.take 8)), s.drop 8) := by
  have hlen : (s.take 8).length = 8 := List.length_take_of_le h
  have hread := Reads.le Failure.outOfBounds (s.take 8) (s.drop 8)
  rw [hlen, List.take_append_drop] at hread
  exact run_bind_ok.mpr ⟨_, _, hread, rfl⟩

theorem getFooter_cases (footer : Bytes) :
    (footer.length < 16 ∧ getFooter footer = .error .outOfBounds) ∨
    (16 ≤ footer.length ∧ maxMetas < colCount footer ∧ getFooter footer = .error (.threw .lengthError)) ∨
    (16 + 34 * colCount footer ≤ footer.length ∧ colCount footer ≤ maxMetas ∧
      ∃ rowCount metas rest, getFooter footer = .ok ((rowCount, metas), rest) ∧ metas.length = colCount footer) ∨
    (16 ≤ footer.length ∧ colCount footer ≤ maxMetas ∧ footer.length < 16 + 34 * colCount footer ∧
      getFooter footer = .error .outOfBounds) := by
  have hshort : ∀ {α : Type} {s : Bytes} (f : BitVec 64 → Reader Failure α), s.length < 8 →
      (getU64 >>= f) s = .error .outOfBounds := by
    intro α s f hs
    show (getU64 s >>= fun p => f p.1 p.2) = _
    rw [(takes_u64 s).2 hs]
    rfl
  have hstep : ∀ {α : Type} {s : Bytes} (f : BitVec 64 → Reader Failure α), 8 ≤ s.length →
      (getU64 >>= f) s = f (BitVec.ofNat 64 (leNat (s.take 8))) (s.drop 8) := by
    intro α s f hs
    show (getU64 s >>= fun p => f p.1 p.2) = _
    rw [getU64_eq hs]
    rfl
  by_cases h16 : 16 ≤ footer.length
  · have hlt : leNat ((footer.drop 8).take 8) < 2 ^ 64 := by
      have h := leNat_lt ((footer.drop 8).take 8)
      rwa [List.length_take_of_le (by rw [List.length_drop]; omega)] at h
    have hcount : (BitVec.ofNat 64 (leNat ((footer.drop 8).take 8))).toNat = colCount footer := by
      rw [BitVec.toNat_ofNat, Nat.mod_eq_of_lt hlt, colCount]
    have hlen : ((footer.drop 8).drop 8).length = footer.length - 16 := by
      rw [List.length_drop, List.length_drop]
      omega
    rw [getFooter, hstep _ (by omega), hstep _ (by rw [List.length_drop]; omega), hcount]
    by_cases hmax : maxMetas < colCount footer
    · refine .inr (.inl ⟨h16, hmax, ?_⟩)
      rw [throwIf, if_pos hmax]
      rfl
    · rw [throwIf, if_neg hmax]
      have htakes := takes_meta.times (colCount footer) ((footer.drop 8).drop 8)
      refine .inr (.inr ?_)
      by_cases hall : 16 + 34 * colCount footer ≤ footer.length
      · obtain ⟨metas, hmetas⟩ := htakes.1 (by omega)
        refine .inl ⟨hall, by omega, BitVec.ofNat 64 (leNat (footer.take 8)), metas,
          ((footer.drop 8).drop 8).drop (34 * colCount footer), ?_, length_times hmetas⟩
        exact run_bind_ok.mpr ⟨(), _, rfl, run_bind_ok.mpr ⟨metas, _, hmetas, rfl⟩⟩
      · refine .inr ⟨h16, by omega, by omega, ?_⟩
        show (times (colCount footer) getMeta _ >>= fun p => _) = _
        rw [htakes.2 (by omega)]
        rfl
  · refine .inl ⟨by omega, ?_⟩
    rw [getFooter]
    by_cases h8 : 8 ≤ footer.length
    · rw [hstep _ h8, hshort _ (by rw [List.length_drop]; omega)]
    · exact hshort _ (by omega)

theorem readAt_some {offset len : BitVec 64} {bytes : Bytes} (h : readAt file offset len = some bytes) :
    offset.toNat + len.toNat ≤ file.length ∧ bytes = (file.drop offset.toNat).take len.toNat := by
  unfold readAt at h
  split at h
  · cases h
  · cases h
    exact ⟨by omega, rfl⟩

theorem sealed_of_reads (hsize : file.length < 2 ^ 64) (h16 : 16 ≤ file.length) {buf footer : Bytes}
    (hmagic : readAt file (BitVec.ofNat 64 file.length - 4) 4 = some kMagic)
    (hbuf : readAt file (BitVec.ofNat 64 file.length - 12) 8 = some buf)
    (hfooter : readAt file (BitVec.ofNat 64 file.length - 12 - BitVec.ofNat 64 (leNat buf))
      (BitVec.ofNat 64 (leNat buf)) = some footer) :
    ∃ body, Sealed file body footer := by
  have hsz : (BitVec.ofNat 64 file.length).toNat = file.length := by
    rw [BitVec.toNat_ofNat, Nat.mod_eq_of_lt hsize]
  have hoff : ∀ k : Nat, k ≤ 16 → (BitVec.ofNat 64 file.length - BitVec.ofNat 64 k).toNat = file.length - k := by
    intro k hk
    rw [BitVec.toNat_sub, hsz, BitVec.toNat_ofNat, Nat.mod_eq_of_lt (show k < 2 ^ 64 by omega)]
    omega
  have h4 : (BitVec.ofNat 64 file.length - 4).toNat = file.length - 4 := hoff 4 (by omega)
  have h12 : (BitVec.ofNat 64 file.length - 12).toNat = file.length - 12 := hoff 12 (by omega)
  obtain ⟨_, hmagic⟩ := readAt_some hmagic
  obtain ⟨_, hbuf⟩ := readAt_some hbuf
  obtain ⟨hin, hfooter⟩ := readAt_some hfooter
  rw [h4] at hmagic
  rw [h12] at hbuf
  have hbuflen : buf.length = 8 := by
    rw [hbuf]
    exact List.length_take_of_le (show 8 ≤ _ by rw [List.length_drop]; omega)
  have hfs : (BitVec.ofNat 64 (leNat buf)).toNat = leNat buf := by
    have hlt := leNat_lt buf
    rw [hbuflen] at hlt
    rw [BitVec.toNat_ofNat, Nat.mod_eq_of_lt (show leNat buf < 2 ^ 64 from hlt)]
  rw [hfs] at hin hfooter
  have hlow : (BitVec.ofNat 64 file.length - 12 - BitVec.ofNat 64 (leNat buf)).toNat =
      file.length - 12 - leNat buf ∧ leNat buf ≤ file.length - 12 := by
    rw [BitVec.toNat_sub, h12, hfs] at hin ⊢
    have hlt := (BitVec.ofNat 64 (leNat buf)).isLt
    rw [hfs] at hlt
    omega
  rw [hlow.1] at hin hfooter
  have hlen : footer.length = leNat buf := by
    rw [hfooter]
    exact List.length_take_of_le (by rw [List.length_drop]; omega)
  refine ⟨file.take (file.length - 12 - leNat buf), ?_, ?_⟩
  · have hput : putU64 (BitVec.ofNat 64 footer.length) = buf := by
      rw [hlen, putU64, hfs, ← hbuflen, leBytes_leNat]
    have htail : kMagic = file.drop (file.length - 4) := by
      rw [hmagic]
      exact List.take_of_length_le (by rw [List.length_drop]; show _ ≤ 4; omega)
    have hend : file.drop (file.length - 12) = buf ++ kMagic := by
      rw [htail, hbuf]
      have hdrop : file.drop (file.length - 4) = (file.drop (file.length - 12)).drop 8 := by
        rw [List.drop_drop]
        congr 1
        omega
      rw [hdrop]
      exact (List.take_append_drop 8 _).symm
    have hrest : file.drop (file.length - 12 - leNat buf) = footer ++ file.drop (file.length - 12) := by
      have hdrop : file.drop (file.length - 12) = (file.drop (file.length - 12 - leNat buf)).drop (leNat buf) := by
        rw [List.drop_drop]
        congr 1
        omega
      rw [hdrop, hfooter, List.take_append_drop]
    rw [hput, ← hend, ← hrest, List.take_append_drop]
  · rw [List.length_take, hlen]
    omega

theorem parseFooter_unsealed (hsize : file.length < 2 ^ 64) (h : ∀ body footer, ¬ Sealed file body footer) :
    ∃ e, parseFooter file = .error (.threw e) := by
  have hsz : (BitVec.ofNat 64 file.length).toNat = file.length := by
    rw [BitVec.toNat_ofNat, Nat.mod_eq_of_lt hsize]
  rw [parseFooter]
  by_cases hsmall : BitVec.ofNat 64 file.length < 4 + 12
  · rw [throwIf, if_pos hsmall]
    exact ⟨_, rfl⟩
  · by_cases hmagic : readAt file (BitVec.ofNat 64 file.length - 4) 4 = some kMagic
    · rw [throwIf, if_neg hsmall, throwIf, if_neg (not_not_intro hmagic), readU64At]
      have h16 : 16 ≤ file.length := by
        rw [BitVec.lt_def, hsz] at hsmall
        exact Nat.le_of_not_lt hsmall
      cases hbuf : readAt file (BitVec.ofNat 64 file.length - 12) 8 with
      | none => exact ⟨_, rfl⟩
      | some buf =>
          cases hfooter : readAt file (BitVec.ofNat 64 file.length - 12 - BitVec.ofNat 64 (leNat buf))
              (BitVec.ofNat 64 (leNat buf)) with
          | none =>
              refine ⟨.runtimeError "NativeColumnar: truncated footer", ?_⟩
              dsimp only [bind, Except.bind, pure, Except.pure]
              rw [hfooter]
          | some footer =>
              obtain ⟨body, hsealed⟩ := sealed_of_reads hsize h16 hmagic hbuf hfooter
              exact absurd hsealed (h body footer)
    · rw [throwIf, if_neg hsmall, throwIf, if_pos hmagic]
      exact ⟨_, rfl⟩

end Footer

section Open

/-- Up to the first field that is refused, the projection stays inside the schema. -/
def ProjectionInside (fields cols : Nat) : List Int → Prop
  | [] => True
  | field :: projection => (field < 0 ∨ (cols : Int) ≤ field) ∨
      (field < (fields : Int) ∧ ProjectionInside fields cols projection)

def FooterInside (schema : Schema) (projection : List Int) (footer : Bytes) : Prop :=
  16 ≤ footer.length ∧ (maxMetas < colCount footer ∨
    16 + 34 * colCount footer ≤ footer.length ∧ ProjectionInside schema.length (colCount footer) projection)

def OpenInside (schema : Schema) (file : Bytes) (projection : List Int) : Prop :=
  ∀ body footer, Sealed file body footer → FooterInside schema projection footer

theorem projectField_iff {metas : List ColumnMeta} {field : Int} :
    projectField schema metas field ≠ .error .outOfBounds ↔
      (field < 0 ∨ (metas.length : Int) ≤ field) ∨ field < (schema.length : Int) := by
  rw [projectField]
  by_cases hbad : field < 0 ∨ metas.length ≤ field.toNat
  · rw [throwIf, if_pos hbad]
    exact iff_of_true (fun h => by cases h) (.inl (by omega))
  · rw [throwIf, if_neg hbad]
    by_cases hin : field.toNat < schema.length
    · rw [List.getElem?_eq_getElem hin, List.getElem?_eq_getElem (show field.toNat < metas.length by omega)]
      exact iff_of_true (fun h => by cases h) (.inr (by omega))
    · rw [List.getElem?_eq_none (show schema.length ≤ field.toNat by omega)]
      exact iff_of_false (fun h => h rfl) (by omega)

theorem projectField_ok {metas : List ColumnMeta} {field : Int} {p : FieldType × ColumnMeta}
    (h : projectField schema metas field = .ok p) : ¬ (field < 0 ∨ (metas.length : Int) ≤ field) := by
  obtain ⟨_, hcheck, _⟩ := Except.bind_ok.mp h
  have hin := throwIf_ok.mp hcheck
  omega

theorem mapM_projectField_iff {metas : List ColumnMeta} :
    projection.mapM (projectField schema metas) ≠ .error .outOfBounds ↔
      ProjectionInside schema.length metas.length projection := by
  induction projection with
  | nil => exact iff_of_true (fun h => by cases h) trivial
  | cons field projection ih =>
      rw [List.mapM_cons, Except.bind_ne_error, projectField_iff, ProjectionInside]
      have hrest : ∀ p : FieldType × ColumnMeta, (do
          let ps ← projection.mapM (projectField schema metas)
          pure (p :: ps)) ≠ .error .outOfBounds ↔ ProjectionInside schema.length metas.length projection := by
        intro p
        rw [Except.bind_ne_error, ih]
        exact and_iff_left fun _ _ h => by cases h
      simp only [hrest]
      cases hfield : projectField schema metas field with
      | error e =>
          have hbad : (field < 0 ∨ (metas.length : Int) ≤ field) ∨ ¬ field < (schema.length : Int) := by
            by_contra hgood
            obtain ⟨h₁, h₂⟩ := not_or.mp hgood
            rw [projectField, throwIf, if_neg (by omega), List.getElem?_eq_getElem (by omega),
              List.getElem?_eq_getElem (by omega)] at hfield
            cases hfield
          constructor
          · rintro ⟨h, _⟩
            exact .inl (by omega)
          · rintro (h | h)
            · exact ⟨.inl h, fun a ha => by cases ha⟩
            · exact ⟨.inr h.1, fun a ha => by cases ha⟩
      | ok p =>
          have hin := projectField_ok hfield
          constructor
          · rintro ⟨h, hall⟩
            exact .inr ⟨by omega, hall p rfl⟩
          · rintro (h | h)
            · exact absurd h hin
            · exact ⟨.inr h.1, fun _ _ => h.2⟩

theorem makeAccessor_ne (page : ColumnMeta) (type : FieldType) : makeAccessor page type ≠ .error .outOfBounds := by
  rw [makeAccessor, CodecRegistry.getEncoding, throwIf]
  split <;> exact fun h => by cases h

theorem mapM_makeAccessor_ne (fields : List (FieldType × ColumnMeta)) :
    (fields.mapM fun p => do
      let acc ← makeAccessor p.2 p.1
      pure (p.1, acc)) ≠ .error .outOfBounds := by
  induction fields with
  | nil => exact fun h => nomatch h
  | cons p fields ih =>
      rw [List.mapM_cons]
      refine Except.bind_ne_error.mpr ⟨?_, fun _ _ => Except.bind_ne_error.mpr ⟨ih, fun _ _ h => nomatch h⟩⟩
      exact Except.bind_ne_error.mpr ⟨makeAccessor_ne p.2 p.1, fun _ _ h => nomatch h⟩

theorem Sealed.unique {body body' footer footer' : Bytes} (hsize : file.length < 2 ^ 64)
    (h : Sealed file body footer) (h' : Sealed file body' footer') : footer = footer' := by
  have hlen := congrArg List.length h.1
  have hlen' := congrArg List.length h'.1
  simp only [List.length_append] at hlen hlen'
  have heq := h.1.symm.trans h'.1
  rw [← List.append_assoc, ← List.append_assoc body'] at heq
  obtain ⟨hfront, hback⟩ := List.append_inj' heq (by simp only [List.length_append, putU64, length_leBytes])
  have hput := (List.append_inj' hback rfl).1
  have hnat := congrArg leNat hput
  rw [putU64, putU64, leNat_leBytes, leNat_leBytes, BitVec.toNat_ofNat, BitVec.toNat_ofNat] at hnat
  refine (List.append_inj' hfront ?_).2
  omega

/-- Opening a file never leaves a buffer exactly when its footer is as long as
its own counts ask for and the projection stays inside the schema. -/
theorem openReader_inside_iff (hsize : file.length < 2 ^ 64) :
    openReader schema file projection ≠ .error .outOfBounds ↔ OpenInside schema file projection := by
  by_cases hsealed : ∃ body footer, Sealed file body footer
  · obtain ⟨body, footer, hs⟩ := hsealed
    have hunique : OpenInside schema file projection ↔ FooterInside schema projection footer := by
      refine ⟨fun h => h body footer hs, ?_⟩
      intro h body' footer' hs'
      rwa [hs'.unique hsize hs]
    rw [hunique, openReader, parseFooter_sealed hs hsize]
    rcases getFooter_cases footer with ⟨hlt, hrun⟩ | ⟨h16, hmax, hrun⟩ | ⟨hall, hmax, rowCount, metas, rest, hrun, hlen⟩ |
        ⟨h16, hmax, hlt, hrun⟩
    · rw [hrun]
      exact iff_of_false (fun h => h rfl) (fun h => absurd h.1 (by omega))
    · rw [hrun]
      exact iff_of_true (fun h => nomatch h) ⟨h16, .inl hmax⟩
    · rw [hrun]
      have hproj := @mapM_projectField_iff schema projection metas
      rw [hlen] at hproj
      have hinside : FooterInside schema projection footer ↔
          ProjectionInside schema.length (colCount footer) projection := by
        constructor
        · rintro ⟨_, h | h⟩
          · omega
          · exact h.2
        · exact fun h => ⟨by omega, .inr ⟨hall, h⟩⟩
      rw [hinside, ← hproj]
      show (projection.mapM (projectField schema metas) >>= fun fields => _) ≠ _ ↔ _
      rw [Except.bind_ne_error]
      refine and_iff_left fun fields _ => ?_
      exact Except.bind_ne_error.mpr ⟨mapM_makeAccessor_ne fields, fun _ _ h => nomatch h⟩
    · rw [hrun]
      refine iff_of_false (fun h => h rfl) ?_
      rintro ⟨_, h | h⟩
      · omega
      · omega
  · obtain ⟨e, he⟩ := parseFooter_unsealed hsize fun body footer h => hsealed ⟨body, footer, h⟩
    rw [openReader, he]
    exact iff_of_true (fun h => nomatch h) fun body footer h => absurd ⟨body, footer, h⟩ hsealed

end Open

end DBPlayground.Format
