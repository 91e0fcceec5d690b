import DBPlayground.Storage.LocalStorage

namespace DBPlayground.Storage.LocalStorage

open ByteReader Table Program Store RelyGuarantee DBPlayground.Session

variable {ι : Type}

theorem isTemp_tempName {full suffix : String} (h : suffix.length = 6) : isTemp (tempName full suffix) = true := by
  have hlist : (tempName full suffix).toList = full.toList ++ ".tmp.".toList ++ suffix.toList := by
    simp [tempName]
  have hlen : suffix.toList.length = 6 := h
  have htake : (full.toList ++ ".tmp.".toList ++ suffix.toList).take
      ((full.toList ++ ".tmp.".toList ++ suffix.toList).length - 6) = full.toList ++ ".tmp.".toList := by
    rw [show (full.toList ++ ".tmp.".toList ++ suffix.toList).length - 6 = (full.toList ++ ".tmp.".toList).length by
      simp only [List.length_append, hlen, Nat.add_sub_cancel], List.take_left]
  rw [isTemp, hlist, htake, List.length_append, hlen]
  simp

structure Inv (s : Directory ι) : Prop where
  fresh : ∀ {n fd}, s.names n = some fd → fd < s.next
  owned : ∀ {fd i}, s.owner fd = some i → fd < s.next ∧ ∀ n, s.names n = some fd → isTemp n = true
  held : ∀ {n i}, s.holder n = some i → isTemp n = true ∧ s.names n ≠ none
  replays : ∃ files, replay s.log = some files ∧ ∀ n, isTemp n = false → (s.names n).map s.content = files n

/-- What is of the clients in `P` stays: the files they write, the names they made, and their
part of the history. -/
structure Frame (P : ι → Prop) (s t : Directory ι) : Prop where
  content : ∀ fd i, P i → s.owner fd = some i → t.content fd = s.content fd ∧ t.owner fd = some i
  held : ∀ n i, P i → s.holder n = some i → t.holder n = some i ∧ t.names n = s.names n
  log : ∃ more, t.log = s.log ++ more ∧ ∀ e ∈ more, ¬ P e.client
  mark : ∀ i, P i → t.mark i = s.mark i

section frame

variable {P Q : ι → Prop} {s t u : Directory ι}

theorem log_refl (P : ι → Prop) (s : Directory ι) : ∃ more, s.log = s.log ++ more ∧ ∀ e ∈ more, ¬ P e.client :=
  ⟨[], (List.append_nil _).symm, fun _ he => absurd he List.not_mem_nil⟩

theorem Frame.refl (s : Directory ι) : Frame P s s :=
  ⟨fun _ _ _ h => ⟨rfl, h⟩, fun _ _ _ h => ⟨h, rfl⟩, log_refl P s, fun _ _ => rfl⟩

theorem Frame.trans (h : Frame P s t) (h' : Frame P t u) : Frame P s u where
  content fd i hi ho := by
    obtain ⟨hc, ho⟩ := h.content fd i hi ho
    obtain ⟨hc', ho'⟩ := h'.content fd i hi ho
    exact ⟨hc'.trans hc, ho'⟩
  held n i hi hs := by
    obtain ⟨ht, hn⟩ := h.held n i hi hs
    obtain ⟨hu, hn'⟩ := h'.held n i hi ht
    exact ⟨hu, hn'.trans hn⟩
  log := by
    obtain ⟨more, hm, hi⟩ := h.log
    obtain ⟨more', hm', hi'⟩ := h'.log
    refine ⟨more ++ more', by rw [hm', hm, List.append_assoc], fun e he => ?_⟩
    exact (List.mem_append.mp he).elim (hi e) (hi' e)
  mark i hi := (h'.mark i hi).trans (h.mark i hi)

theorem Frame.mono (hQ : ∀ i, Q i → P i) (h : Frame P s t) : Frame Q s t where
  content fd i hi := h.content fd i (hQ i hi)
  held n i hi := h.held n i (hQ i hi)
  log := by
    obtain ⟨more, hm, hi⟩ := h.log
    exact ⟨more, hm, fun e he hq => hi e he (hQ _ hq)⟩
  mark i hi := h.mark i (hQ i hi)

end frame

abbrev Guar (i : ι) : Directory ι → Directory ι → Prop := Frame (· ≠ i)

abbrev Rely (i : ι) : Directory ι → Directory ι → Prop := Frame (· = i)

theorem moments_rely [DecidableEq ι] {i : ι} {s t : Directory ι} (h : Rely i s t) (hm : s.mark i ≤ s.log.length) :
    t.moments i = s.moments i := by
  obtain ⟨more, hlog, hmore⟩ := h.log
  have hnone : more.filter (·.client = i) = [] := by
    simpa only [List.filter_eq_nil_iff, decide_eq_true_eq] using hmore
  rw [Directory.moments, h.mark i rfl, hlog, List.drop_append_of_le_length hm, List.filter_append, hnone,
    List.append_nil]
  rfl

section replay

variable {log : List (Event ι)} {e : Event ι}

theorem replay_append : replay (log ++ [e]) = (replay log).bind e.apply := by
  simp only [replay, List.foldlM_append, List.foldlM_cons, List.foldlM_nil, bind_pure]
  rfl

end replay

section steps

variable {s : Directory ι} {i : ι} {name full : String} {fd : Nat} {data bytes : Bytes}

theorem plain_ne {n : String} (hn : isTemp n = false) (ht : isTemp name = true) : n ≠ name := by
  rintro rfl
  exact Bool.false_ne_true (hn.symm.trans ht)

theorem Inv.create (h : Inv s) (hn : s.names name = none) (ht : isTemp name = true) :
    Inv (s.create i name) ∧ Guar i s (s.create i name) := by
  have hother : ∀ {n}, n ≠ name → (s.create i name).names n = s.names n := fun hne => Function.update_of_ne hne ..
  have hold : ∀ {fd}, fd < s.next →
      (s.create i name).content fd = s.content fd ∧ (s.create i name).owner fd = s.owner fd :=
    fun hlt => ⟨Function.update_of_ne (Nat.ne_of_lt hlt) .., Function.update_of_ne (Nat.ne_of_lt hlt) ..⟩
  have hself : (s.create i name).names name = some s.next := Function.update_self ..
  refine ⟨⟨fun {n fd} hfd => ?_, fun {fd j} ho => ?_, fun {n j} hh => ?_, ?_⟩,
    ⟨fun fd j _ ho => ⟨(hold (h.owned ho).1).1, (hold (h.owned ho).1).2.trans ho⟩, fun n j _ hh => ?_,
      log_refl (· ≠ i) s, fun _ _ => rfl⟩⟩
  · by_cases hne : n = name
    · subst hne
      cases hself.symm.trans hfd
      exact Nat.lt_succ_self _
    · exact Nat.lt_succ_of_lt (h.fresh ((hother hne).symm.trans hfd))
  · by_cases hfd : fd = s.next
    · subst hfd
      refine ⟨Nat.lt_succ_self _, fun n hn' => ?_⟩
      by_cases hne : n = name
      · rw [hne]
        exact ht
      · exact absurd (h.fresh ((hother hne).symm.trans hn')) (Nat.lt_irrefl _)
    · obtain ⟨hlt, htemp⟩ := h.owned ((Function.update_of_ne hfd ..).symm.trans ho)
      refine ⟨Nat.lt_succ_of_lt hlt, fun n hn' => ?_⟩
      by_cases hne : n = name
      · rw [hne]
        exact ht
      · exact htemp n ((hother hne).symm.trans hn')
  · by_cases hne : n = name
    · subst hne
      exact ⟨ht, by rw [hself]; exact Option.some_ne_none _⟩
    · rw [hother hne]
      exact h.held ((Function.update_of_ne hne ..).symm.trans hh)
  · obtain ⟨files, hr, hf⟩ := h.replays
    refine ⟨files, hr, fun n hp => ?_⟩
    rw [← hf n hp, hother (plain_ne hp ht)]
    cases hfd : s.names n with
    | none => rfl
    | some fd => exact congrArg some (hold (h.fresh hfd)).1
  · have hne : n ≠ name := by
      rintro rfl
      exact (h.held hh).2 hn
    exact ⟨(Function.update_of_ne hne ..).trans hh, hother hne⟩

theorem Inv.ne_of_owned (h : Inv s) (ho : s.owner fd = some i) {n : String} {fd' : Nat} (hp : isTemp n = false)
    (hn : s.names n = some fd') : fd' ≠ fd := by
  rintro rfl
  exact Bool.false_ne_true (hp.symm.trans ((h.owned ho).2 n hn))

theorem Inv.append (h : Inv s) (ho : s.owner fd = some i) (data : Bytes) :
    Inv (s.append fd data) ∧ Guar i s (s.append fd data) := by
  have hold : ∀ {fd'}, fd' ≠ fd → (s.append fd data).content fd' = s.content fd' :=
    fun hne => Function.update_of_ne hne ..
  refine ⟨⟨h.fresh, h.owned, h.held, ?_⟩,
    ⟨fun fd' j hj ho' => ⟨hold ?_, ho'⟩, fun _ _ _ hh => ⟨hh, rfl⟩, log_refl (· ≠ i) s, fun _ _ => rfl⟩⟩
  · obtain ⟨files, hr, hf⟩ := h.replays
    refine ⟨files, hr, fun n hp => ?_⟩
    rw [← hf n hp]
    show (s.names n).map _ = _
    cases hfd : s.names n with
    | none => rfl
    | some fd' => exact congrArg some (hold (h.ne_of_owned ho hp hfd))
  · rintro rfl
    exact hj (Option.some.inj (ho'.symm.trans ho))

theorem Inv.exists (h : Inv s) (hn : s.names full ≠ none) (ht : isTemp full = false) (bytes : Bytes) :
    Inv (s.record i ⟨full, bytes⟩ .alreadyExists) ∧
      Guar i s (s.record i ⟨full, bytes⟩ .alreadyExists) := by
  refine ⟨⟨h.fresh, h.owned, h.held, ?_⟩,
    ⟨fun _ _ _ ho => ⟨rfl, ho⟩, fun _ _ _ hh => ⟨hh, rfl⟩, ⟨_, rfl, ?_⟩, fun _ _ => rfl⟩⟩
  · obtain ⟨files, hr, hf⟩ := h.replays
    refine ⟨files, ?_, hf⟩
    obtain ⟨fd, hfd⟩ := Option.ne_none_iff_exists'.mp hn
    have hfile : files full = some (s.content fd) := by rw [← hf full ht, hfd]; rfl
    rw [Directory.record, replay_append, hr]
    simp [Event.apply, hfile]
  · simp

theorem Inv.addName (h : Inv s) (hn : s.names full = none) (ht : isTemp full = false) (ho : s.owner fd = some i)
    (hb : s.content fd = bytes) : Inv ((s.addName full fd).record i ⟨full, bytes⟩ .created) ∧
      Guar i s ((s.addName full fd).record i ⟨full, bytes⟩ .created) := by
  have hother : ∀ {n}, n ≠ full → (s.addName full fd).names n = s.names n := fun hne => Function.update_of_ne hne ..
  have hself : (s.addName full fd).names full = some fd := Function.update_self ..
  refine ⟨⟨fun {n fd'} hfd => ?_, fun {fd' j} ho' => ?_, fun {n j} hh => ?_, ?_⟩,
    ⟨fun fd' j hj ho' => ⟨rfl, (Function.update_of_ne ?_ ..).trans ho'⟩, fun n j _ hh => ⟨hh, hother ?_⟩, ⟨_, rfl, ?_⟩,
      fun _ _ => rfl⟩⟩
  · by_cases hne : n = full
    · subst hne
      cases hself.symm.trans hfd
      exact (h.owned ho).1
    · exact h.fresh ((hother hne).symm.trans hfd)
  · have hne : fd' ≠ fd := by
      rintro rfl
      cases (Function.update_self ..).symm.trans ho'
    obtain ⟨hlt, htemp⟩ := h.owned ((Function.update_of_ne hne ..).symm.trans ho')
    refine ⟨hlt, fun n hn' => ?_⟩
    by_cases hnf : n = full
    · subst hnf
      cases hself.symm.trans hn'
      exact absurd rfl hne
    · exact htemp n ((hother hnf).symm.trans hn')
  · obtain ⟨htemp, hsome⟩ := h.held hh
    exact ⟨htemp, fun he => hsome ((hother (Ne.symm (plain_ne ht htemp))).symm.trans he)⟩
  · obtain ⟨files, hr, hf⟩ := h.replays
    have hnone : files full = none := by rw [← hf full ht, hn]; rfl
    refine ⟨Function.update files full (some bytes), ?_, fun n hp => ?_⟩
    · rw [Directory.record, replay_append, show (s.addName full fd).log = s.log from rfl, hr]
      simp [Event.apply, hnone]
    · by_cases hne : n = full
      · subst hne
        rw [Function.update_self, ← hb]
        exact congrArg (Option.map s.content) hself
      · rw [Function.update_of_ne hne, ← hf n hp]
        exact congrArg (Option.map s.content) (hother hne)
  · rintro rfl
    exact hj (Option.some.inj (ho'.symm.trans ho))
  · exact Ne.symm (plain_ne ht (h.held hh).1)
  · simp

theorem Inv.removeName (h : Inv s) (ho : s.holder name = some i) :
    Inv (s.removeName name) ∧ Guar i s (s.removeName name) := by
  have htemp := (h.held ho).1
  have hother : ∀ {n}, n ≠ name → (s.removeName name).names n = s.names n := fun hne => Function.update_of_ne hne ..
  have hold : ∀ {n fd}, (s.removeName name).names n = some fd → s.names n = some fd := by
    intro n fd hn
    have hne : n ≠ name := by
      rintro rfl
      cases (Function.update_self ..).symm.trans hn
    exact (hother hne).symm.trans hn
  refine ⟨⟨fun hn => h.fresh (hold hn), fun ho' => ⟨(h.owned ho').1, fun n hn => (h.owned ho').2 n (hold hn)⟩,
    fun {n j} hh => ?_,
    ?_⟩, ⟨fun _ _ _ ho => ⟨rfl, ho⟩, fun n j hj hh => ?_, log_refl (· ≠ i) s, fun _ _ => rfl⟩⟩
  · have hne : n ≠ name := by
      rintro rfl
      cases (Function.update_self ..).symm.trans hh
    rw [hother hne]
    exact h.held ((Function.update_of_ne hne ..).symm.trans hh)
  · obtain ⟨files, hr, hf⟩ := h.replays
    refine ⟨files, hr, fun n hp => ?_⟩
    rw [← hf n hp]
    exact congrArg (Option.map s.content) (hother (plain_ne hp htemp))
  · have hne : n ≠ name := by
      rintro rfl
      exact hj (Option.some.inj (hh.symm.trans ho))
    exact ⟨(Function.update_of_ne hne ..).trans hh, hother hne⟩

theorem append_nil : s.append fd [] = s := by
  simp [Directory.append]

end steps

variable [DecidableEq ι]

def context (i : ι) (c : Call) : Context Syscall Syscall.Ans (Directory ι) :=
  ⟨service.exec i c, Rely i, Guar i, Inv, Frame.refl, Frame.trans⟩

section calls

variable {s s' : Directory ι} {i : ι} {c : Call} {name full : String} {fd : Nat} {data bytes : Bytes}

theorem exec_mkstemp {r : Option (String × Nat)} (h : service.exec i c (.mkstemp full) s r s') :
    (r = none ∧ s' = s) ∨
      ∃ name, isTemp name = true ∧ s.names name = none ∧ r = some (name, s.next) ∧ s' = s.create i name := by
  obtain ⟨e, he, _⟩ := h
  simp only [service, Directory.perform] at he
  split at he
  · split at he
    · next hs =>
        cases he
        exact .inr ⟨_, isTemp_tempName hs.1, hs.2, rfl, rfl⟩
    · cases he
  · cases he
    exact .inl ⟨rfl, rfl⟩

theorem exec_write {r : Int} (h : service.exec i c (.write fd data) s r s') :
    (r ≤ 0 ∧ s' = s) ∨ ∃ n : Nat, 0 < n ∧ n ≤ data.length ∧ r = n ∧ s' = s.append fd (data.take n) := by
  obtain ⟨e, he, _⟩ := h
  simp only [service, Directory.perform] at he
  split at he
  · split at he
    · next hle =>
        cases he
        rcases Nat.eq_zero_or_pos e.count with h₀ | hpos
        · refine .inl ⟨by rw [h₀]; exact Int.le_refl 0, ?_⟩
          rw [h₀, List.take_zero, append_nil]
        · exact .inr ⟨_, hpos, hle, rfl, rfl⟩
    · cases he
  · cases he
    exact .inl ⟨show (-1 : Int) ≤ 0 by decide, rfl⟩

theorem exec_link {r : LinkAnswer} (h : service.exec i c (.link name full) s r s') :
    (r = .failed ∧ s' = s) ∨ (r = .eexist ∧ s.names full ≠ none ∧ s' = s.record i c .alreadyExists) ∨
      ∃ fd, r = .linked ∧ s.names full = none ∧ s.names name = some fd ∧
        s' = (s.addName full fd).record i c .created := by
  obtain ⟨e, he, _⟩ := h
  simp only [service, Directory.perform] at he
  split at he
  · split at he
    · next hf =>
        cases he
        exact .inr (.inl ⟨rfl, by rw [hf]; exact Option.some_ne_none _, rfl⟩)
    · next hf =>
        split at he
        · next hn =>
            cases he
            exact .inr (.inr ⟨_, rfl, hf, hn, rfl⟩)
        · cases he
          exact .inl ⟨rfl, rfl⟩
  · cases he
    exact .inl ⟨rfl, rfl⟩

theorem exec_unlink {r : Bool} (h : service.exec i c (.unlink name) s r s') : s' = s ∨ s' = s.removeName name := by
  obtain ⟨e, he, _⟩ := h
  simp only [service, Directory.perform] at he
  split at he
  · cases he
    exact .inr rfl
  · cases he
    exact .inl rfl

theorem exec_same {o : Syscall} {r : o.Ans} (ho : ∀ e, ∃ r, Directory.perform i c e o s = some (r, s))
    (h : service.exec i c o s r s') : s' = s := by
  obtain ⟨e, he, _⟩ := h
  obtain ⟨r', hr⟩ := ho e
  exact (congrArg Prod.snd (Option.some.inj (hr.symm.trans he))).symm

structure Past (i : ι) (ms : List (Event ι)) (s : Directory ι) : Prop where
  moments : s.moments i = ms
  mark : s.mark i ≤ s.log.length

theorem Past.stable {ms : List (Event ι)} (h : Past i ms s) (hr : Rely i s s') : Past i ms s' := by
  obtain ⟨more, hm, _⟩ := hr.log
  refine ⟨(moments_rely hr h.mark).trans h.moments, ?_⟩
  rw [hr.mark i rfl, hm, List.length_append]
  exact Nat.le_add_right_of_le h.mark

structure Writing (i : ι) (name : String) (fd : Nat) (done : Bytes) (s : Directory ι) : Prop where
  past : Past i [] s
  holder : s.holder name = some i
  names : s.names name = some fd
  owner : s.owner fd = some i
  content : s.content fd = done

theorem Writing.stable {done : Bytes} (h : Writing i name fd done s) (hr : Rely i s s') :
    Writing i name fd done s' := by
  obtain ⟨hh, hn⟩ := hr.held name i rfl h.holder
  obtain ⟨hc, ho⟩ := hr.content fd i rfl h.owner
  exact ⟨h.past.stable hr, hh, hn.trans h.names, ho, hc.trans h.content⟩

structure Left (i : ι) (name : String) (ms : List (Event ι)) (s : Directory ι) : Prop where
  past : Past i ms s
  holder : s.holder name = some i

theorem Left.stable {ms : List (Event ι)} (h : Left i name ms s) (hr : Rely i s s') : Left i name ms s' :=
  ⟨h.past.stable hr, (hr.held name i rfl h.holder).1⟩

theorem Writing.left {done : Bytes} (h : Writing i name fd done s) : Left i name [] s := ⟨h.past, h.holder⟩

theorem wpm_writeAll {rounds : Nat} {done rest : Bytes} (hs : Inv s) (h : Writing i name fd done s)
    (hle : rest.length ≤ rounds) :
    wpm (context i c) (writeAll fd full rounds rest) (fun _ => Writing i name fd (done ++ rest))
      (fun _ => Left i name []) s := by
  induction rounds generalizing s done rest with
  | zero =>
      obtain rfl := List.eq_nil_of_length_eq_zero (Nat.le_zero.mp hle)
      rw [List.append_nil]
      exact wpm_pure fun t ht _ => h.stable ht
  | succ rounds ih =>
      unfold writeAll
      split
      · next hnil =>
          rw [hnil, List.append_nil]
          exact wpm_pure fun t ht _ => h.stable ht
      · refine wpm_perform_bind fun t ht hi r u hx => ?_
        have hw := h.stable ht
        rcases exec_write hx with ⟨hr, rfl⟩ | ⟨n, hpos, hn, rfl, rfl⟩
        · refine ⟨Frame.refl u, hi, ?_⟩
          rw [if_pos hr]
          exact wpm_throw fun v hv _ => (hw.stable hv).left
        · obtain ⟨hu, hg⟩ := hi.append hw.owner (rest.take n)
          refine ⟨hg, hu, ?_⟩
          rw [if_neg (by omega)]
          have hwrite : Writing i name fd (done ++ rest.take n) (t.append fd (rest.take n)) := by
            refine ⟨⟨hw.past.moments, hw.past.mark⟩, hw.holder, hw.names, hw.owner, ?_⟩
            rw [← hw.content]
            exact Function.update_self ..
          have hrest : (rest.drop n).length ≤ rounds := by
            rw [List.length_drop]
            omega
          have hgo := ih hu hwrite hrest
          rw [List.append_assoc, List.take_append_drop] at hgo
          exact hgo

theorem wpm_cleanup {α : Type} {m : SysM α} {ms : List (Event ι)} {Q : α → Directory ι → Prop}
    {E : Exn → Directory ι → Prop}
    (h : Left i name ms s) (hm : ∀ {t}, Inv t → Past i ms t → wpm (context i c) m Q E t) :
    wpm (context i c) (close fd >>= fun _ => unlink name >>= fun _ => m) Q E s := by
  refine wpm_perform_bind fun t ht hi r u hx => ?_
  obtain rfl := exec_same (fun e => ⟨e.ok, rfl⟩) hx
  refine ⟨Frame.refl u, hi, wpm_perform_bind fun v hv hi' r' w hx' => ?_⟩
  have hl := (h.stable ht).stable hv
  rcases exec_unlink hx' with rfl | rfl
  · exact ⟨Frame.refl w, hi', hm hi' hl.past⟩
  · obtain ⟨hw, hg⟩ := hi'.removeName hl.holder
    exact ⟨hg, hw, hm hw ⟨hl.past.moments, hl.past.mark⟩⟩

theorem Past.record (h : Past i [] s) {r : CreateFileResult} :
    Past i [⟨i, full, bytes, r⟩] (s.record i ⟨full, bytes⟩ r) := by
  refine ⟨?_, ?_⟩
  · have hm : (s.log.drop (s.mark i)).filter (·.client = i) = [] := h.moments
    show ((s.log ++ [_]).drop (s.mark i)).filter _ = _
    rw [List.drop_append_of_le_length h.mark, List.filter_append, hm]
    simp
  · show s.mark i ≤ (s.log ++ [_]).length
    rw [List.length_append]
    exact Nat.le_add_right_of_le h.mark

theorem wpm_publish (hs : Inv s) (hp : isTemp full = false) (h : Writing i name fd [] s) :
    wpm (context i ⟨full, bytes⟩) (publish fd name full bytes) (fun r => Past i [⟨i, full, bytes, r⟩])
      (fun _ => Left i name []) s := by
  unfold publish
  refine wpm_bind hs (wpm_mono (wpm_writeAll hs h (Nat.le_refl _)) fun _ t _ hw => ?_)
  refine wpm_perform_bind fun u hu hi ok v hx => ?_
  obtain rfl := exec_same (fun e => ⟨e.ok, rfl⟩) hx
  have hw := hw.stable hu
  refine ⟨Frame.refl v, hi, ?_⟩
  cases ok with
  | false => exact wpm_throw fun w hw' _ => (hw.stable hw').left
  | true =>
      refine wpm_perform_bind fun w hw' hi' r z hz => ?_
      have hw := hw.stable hw'
      rcases exec_link hz with ⟨rfl, rfl⟩ | ⟨rfl, hf, rfl⟩ | ⟨fd', rfl, hf, hn, rfl⟩
      · exact ⟨Frame.refl z, hi', wpm_throw fun x hx _ => (hw.stable hx).left⟩
      · obtain ⟨hz, hg⟩ := hi'.exists (i := i) hf hp bytes
        refine ⟨hg, hz, wpm_cleanup ⟨hw.past.record, hw.holder⟩ fun _ hpast => ?_⟩
        exact wpm_pure fun x hx _ => hpast.stable hx
      · cases hw.names.symm.trans hn
        obtain ⟨hz, hg⟩ := hi'.addName (i := i) hf hp hw.owner hw.content
        have hpast : Past i [] (w.addName full fd) := ⟨hw.past.moments, hw.past.mark⟩
        refine ⟨hg, hz, wpm_cleanup ⟨hpast.record, hw.holder⟩ fun _ hpast => ?_⟩
        exact wpm_pure fun x hx _ => hpast.stable hx

theorem wpm_createDirectories {ms : List (Event ι)} (h : Past i ms s) :
    wpm (context i c) (createDirectories full) (fun _ => Past i ms) (fun _ => Past i ms) s := by
  refine wpm_perform_bind fun t ht hi r u hx => ?_
  obtain rfl := exec_same (fun e => ⟨_, rfl⟩) hx
  have h := h.stable ht
  refine ⟨Frame.refl u, hi, ?_⟩
  cases r with
  | ok _ => exact wpm_pure fun v hv _ => h.stable hv
  | error e => exact wpm_throw fun v hv _ => h.stable hv

theorem wpm_createIfAbsent (hs : Inv s) (hp : isTemp full = false) (h : Past i [] s) :
    wpm (context i ⟨full, bytes⟩) (createIfAbsent full bytes) (fun r => Past i [⟨i, full, bytes, r⟩])
      (fun _ => Past i []) s := by
  unfold createIfAbsent
  refine wpm_bind hs (wpm_mono (wpm_createDirectories h) fun _ s _ h => ?_)
  refine wpm_perform_bind fun t ht hi r u hx => ?_
  have h := h.stable ht
  rcases exec_mkstemp hx with ⟨rfl, rfl⟩ | ⟨name, htemp, hn, rfl, rfl⟩
  · exact ⟨Frame.refl u, hi, wpm_throw fun v hv _ => h.stable hv⟩
  · obtain ⟨hu, hg⟩ := hi.create (i := i) hn htemp
    refine ⟨hg, hu, wpm_tryCatch hu ?_⟩
    have hw : Writing i name t.next [] (t.create i name) :=
      ⟨⟨h.moments, h.mark⟩, Function.update_self .., Function.update_self .., Function.update_self ..,
        Function.update_self ..⟩
    refine wp_mono (wpm_publish hu hp hw) fun r v hv hr => ?_
    cases r with
    | ok r => exact hr
    | error e => exact wpm_cleanup hr fun _ hpast => wpm_throw fun w hw _ => hpast.stable hw

end calls

def verified : Verified (@service ι _) where
  inv := Inv
  rely := Rely
  guar := Guar
  idle _ _ := True
  pre i c s := isTemp c.full = false ∧ Past i [] s
  post i c r s := match r with
    | .ok r => s.moments i = [⟨i, c.full, c.bytes, r⟩]
    | .error _ => s.moments i = []
  rely_refl _ := Frame.refl
  rely_trans := Frame.trans
  guar_rely hij := Frame.mono fun _ hi => hi ▸ Ne.symm hij
  idle_stable _ _ _ _ := trivial
  enter_ok {i c s} hs _ he := by
    have hplain : isTemp c.full = false := by simpa [service] using he
    refine ⟨⟨fun _ _ _ ho => ⟨rfl, ho⟩, fun _ _ _ hh => ⟨hh, rfl⟩, log_refl (· ≠ i) s,
      fun j hj => Function.update_of_ne hj ..⟩,
      ⟨hs.fresh, hs.owned, hs.held, hs.replays⟩, hplain, ?_, Nat.le_of_eq (Function.update_self ..)⟩
    show (s.log.drop (Function.update s.mark i s.log.length i)).filter _ = []
    rw [Function.update_self, List.drop_length]
    rfl
  code_ok {i c s} hs hpre := by
    refine wp_bind_ret (fun _ => rfl) (wp_mono (wpm_createIfAbsent hs hpre.1 hpre.2) fun r t _ hr => ?_)
    cases r with
    | ok r => exact ⟨trivial, hr.moments⟩
    | error e => exact ⟨trivial, hr.moments⟩

theorem good_start : (@verified ι _).Good start := by
  refine ⟨⟨fun h => ?_, fun h => ?_, fun h => ?_, ⟨_, rfl, fun _ _ => rfl⟩⟩, fun _ => trivial⟩ <;> cases h

/-- `CreateIfAbsent` takes effect in one moment: the files that clients see are those of a
store that creates each in one step, and a call that returns had one such moment, with the
result it returns; a call that throws had none. -/
theorem createIfAbsent_atomic {x : Config ι Syscall Syscall.Ans (Directory ι) Call Reply}
    (h : Steps service start x) :
    (∃ files, replay x.store.log = some files ∧
      ∀ n, isTemp n = false → (x.store.names n).map x.store.content = files n) ∧
    ∀ i full bytes r, Replies x i ⟨full, bytes⟩ r →
      x.store.moments i = match r with
        | .ok r => [⟨i, full, bytes, r⟩]
        | .error _ => [] := by
  have hg := good_start.steps h
  refine ⟨hg.inv.replays, fun i full bytes r hr => ?_⟩
  have hpost := (hg.replies hr).2
  cases r with
  | ok r => exact hpost
  | error e => exact hpost

/-- The next system call succeeds, and writes one byte if it writes. -/
def go : Move Choice Call := .request { ok := true, count := 1 }

/-- Two clients create one file. The first writes its bytes one by one, the second
cannot remove its temporary file. -/
def race : List (Bool × Move Choice Call) :=
  [(false, .call ⟨"a", [1, 2]⟩), (true, .call ⟨"a", [9]⟩), (false, go), (true, go),
    (false, .request { ok := true, suffix := "aaaaaa" }), (true, .request { ok := true, suffix := "bbbbbb" }),
    (false, go), (true, go), (true, go), (false, go), (false, go), (false, go), (true, go), (false, go), (false, go),
    (true, go), (true, .request { ok := false })]

theorem createIfAbsent_race : ∃ x : Config Bool Syscall Syscall.Ans (Directory Bool) Call Reply, Steps service start x ∧
    x.store.moments false = [⟨false, "a", [1, 2], .created⟩] ∧
      x.store.moments true = [⟨true, "a", [9], .alreadyExists⟩] := by
  obtain ⟨x, hx, h₀, h₁⟩ : ∃ x, playAll service race start = some x ∧
      Replies x false ⟨"a", [1, 2]⟩ (.ok .created) ∧
      Replies x true ⟨"a", [9]⟩ (.ok .alreadyExists) := by
    refine ⟨_, rfl, ?_, ?_⟩ <;> rfl
  have hsteps := playAll_steps hx
  exact ⟨x, hsteps, (createIfAbsent_atomic hsteps).2 false _ _ _ h₀, (createIfAbsent_atomic hsteps).2 true _ _ _ h₁⟩

end DBPlayground.Storage.LocalStorage
