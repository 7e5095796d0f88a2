import PurpleWolf.Core.TokenBudget

/-! # Clients do not spend each other's budget

The slots of the limiter are shared, and a client is forgotten when `cap` others have come
since its last request.  As long as fewer come between any two of its requests, it is never
the least recently seen one when a slot is reclaimed (`Recency.Ahead`), and it is answered
as if it were alone (`answersTo_alone`). -/

namespace PurpleWolf.Reputation

variable {Ip : Type} [DecidableEq Ip]

/-- Between any two consecutive calls for an IP fewer than `cap` distinct others appear. -/
def FewOthers (cap : ℕ) (a : Ip) (calls : List (ℕ × Ip)) : Prop :=
  ∀ before now between now' after, calls = before ++ (now, a) :: (between ++ (now', a) :: after) →
    (∀ c ∈ between, c.2 ≠ a) → (between.map Prod.snd).toFinset.card < cap

theorem FewOthers.tail {cap : ℕ} {a : Ip} {c : ℕ × Ip} {calls : List (ℕ × Ip)} (h : FewOthers cap a (c :: calls)) :
    FewOthers cap a calls := by
  intro before now between now' after hcalls
  exact h (c :: before) now between now' after (by rw [hcalls]; rfl)

theorem FewOthers.next {cap : ℕ} {a : Ip} {now : ℕ} {calls : List (ℕ × Ip)} (h : FewOthers cap a ((now, a) :: calls))
    (between : List (ℕ × Ip)) (now' : ℕ) (after : List (ℕ × Ip)) (hcalls : calls = between ++ (now', a) :: after)
    (hbetween : ∀ c ∈ between, c.2 ≠ a) : (∅ ∪ (between.map Prod.snd).toFinset).card < cap := by
  rw [Finset.empty_union]
  exact h [] now between now' after (by rw [hcalls]; rfl) hbetween

namespace Recency

variable {cap quota : ℕ} {l : Recency Ip}

/-! ### The list -/

/-- Every IP is tracked once, and there are at most `cap` of them. -/
structure Bounded (cap : ℕ) (l : Recency Ip) : Prop where
  nodup : (l.map Bucket.ip).Nodup
  length_le : l.length ≤ cap

theorem Bounded.check (h : Bounded cap l) (hcap : 1 ≤ cap) (now : ℕ) (ip : Ip) :
    Bounded cap (Recency.check cap quota l now ip).1 := by
  obtain ⟨hnodup, hlength⟩ := h
  unfold Recency.check
  cases hfind : l.find? (fun b => b.ip = ip) with
  | some b =>
      have hb : b.ip = ip := by simpa using List.find?_some hfind
      have hmem : b ∈ l := List.mem_of_find?_eq_some hfind
      have hshort : (l.filter (fun c => c.ip ≠ ip)).length < l.length :=
        List.length_filter_lt_length_iff_exists.mpr ⟨b, hmem, by simpa using hb⟩
      refine ⟨List.nodup_cons.mpr ⟨?_, hnodup.sublist (List.filter_sublist.map _)⟩, ?_⟩
      · intro hin
        obtain ⟨c, hc, hcip⟩ := List.mem_map.mp hin
        have hne : c.ip ≠ ip := by simpa using List.of_mem_filter hc
        exact hne (hcip.trans hb)
      · exact Nat.succ_le_of_lt (lt_of_lt_of_le hshort hlength)
  | none =>
      have hnew : ∀ c ∈ l, c.ip ≠ ip := by simpa using List.find?_eq_none.mp hfind
      simp only
      split_ifs with hroom
      · refine ⟨List.nodup_cons.mpr ⟨?_, hnodup⟩, Nat.succ_le_of_lt hroom⟩
        intro hin
        obtain ⟨c, hc, hcip⟩ := List.mem_map.mp hin
        exact hnew c hc hcip
      · refine ⟨List.nodup_cons.mpr ⟨?_, hnodup.sublist ((List.dropLast_sublist l).map _)⟩, ?_⟩
        · intro hin
          obtain ⟨c, hc, hcip⟩ := List.mem_map.mp hin
          exact hnew c (List.mem_of_mem_dropLast hc) hcip
        · rw [List.length_cons, List.length_dropLast]
          omega

/-! ### Who is ahead -/

/-- The IP is tracked, and only those of a set are ahead of it. -/
def Ahead (others : Finset Ip) (a : Ip) (l : Recency Ip) : Prop :=
  ∃ pre b post, l = pre ++ b :: post ∧ b.ip = a ∧ ∀ c ∈ pre, c.ip ∈ others

theorem Ahead.isSome {others : Finset Ip} {a : Ip} (h : Ahead others a l) : (l.bucketOf a).isSome := by
  obtain ⟨pre, b, post, rfl, hb, -⟩ := h
  exact bucketOf_isSome.mpr ⟨b, by simp, hb⟩

theorem ahead_check_self (cap quota : ℕ) (l : Recency Ip) (now : ℕ) (a : Ip) :
    Ahead ∅ a (check cap quota l now a).1 := by
  obtain ⟨rest, hcheck⟩ := check_eq cap quota l now a
  rw [hcheck]
  exact ⟨[], _, rest, rfl, Bucket.serve_ip (fun c hc => ip_of_bucketOf hc), by simp⟩

/-- Those ahead are all different. -/
theorem length_lt_card {others : Finset Ip} {ip : Ip} {pre : List (Bucket Ip)} (hnodup : (pre.map Bucket.ip).Nodup)
    (hpre : ∀ c ∈ pre, c.ip ∈ others) (hnew : ∀ c ∈ pre, c.ip ≠ ip) : pre.length < (insert ip others).card := by
  have hfresh : ip ∉ (pre.map Bucket.ip).toFinset := by
    rw [List.mem_toFinset]
    intro hin
    obtain ⟨c, hc, hcip⟩ := List.mem_map.mp hin
    exact hnew c hc hcip
  have hsub : insert ip (pre.map Bucket.ip).toFinset ⊆ insert ip others := by
    apply Finset.insert_subset_insert
    intro i hi
    obtain ⟨c, hc, rfl⟩ := List.mem_map.mp (List.mem_toFinset.mp hi)
    exact hpre c hc
  have hcard := Finset.card_le_card hsub
  rw [Finset.card_insert_of_notMem hfresh, List.toFinset_card_of_nodup hnodup, List.length_map] at hcard
  omega

/-- **Another call.**  As long as fewer than `cap` others have come, the IP is not the last
one of a full list, and so not evicted. -/
theorem Ahead.check {others : Finset Ip} {a ip : Ip} (h : Ahead others a l) (hbounded : Bounded cap l) (hne : ip ≠ a)
    (hfew : (insert ip others).card < cap) (now : ℕ) :
    Ahead (insert ip others) a (Recency.check cap quota l now ip).1 := by
  obtain ⟨pre, b, post, rfl, hb, hpre⟩ := h
  have hahead : ∀ c ∈ pre, c.ip ∈ insert ip others := fun c hc => Finset.mem_insert_of_mem (hpre c hc)
  unfold Recency.check
  cases hfind : (pre ++ b :: post).find? (fun b => b.ip = ip) with
  | some found =>
      have hfound : found.ip = ip := by simpa using List.find?_some hfind
      refine ⟨((found.refill quota now).spend).1 :: pre.filter (fun c => c.ip ≠ ip), b,
        post.filter (fun c => c.ip ≠ ip), ?_, hb, ?_⟩
      · simp only
        rw [List.filter_append, List.filter_cons_of_pos (by simpa [hb] using Ne.symm hne)]
        rfl
      · rintro c (_ | ⟨_, hc⟩)
        · rw [show ((found.refill quota now).spend).1.ip = found.ip from rfl, hfound]
          exact Finset.mem_insert_self _ _
        · exact hahead c (List.mem_of_mem_filter hc)
  | none =>
      have hnew : ∀ c ∈ pre ++ b :: post, c.ip ≠ ip := by simpa using List.find?_eq_none.mp hfind
      have hfront : ∀ c ∈ ((Bucket.fresh quota now ip).spend).1 :: pre, c.ip ∈ insert ip others := by
        rintro c (_ | ⟨_, hc⟩)
        · exact Finset.mem_insert_self _ _
        · exact hahead c hc
      simp only
      split_ifs with hroom
      · exact ⟨_ :: pre, b, post, rfl, hb, hfront⟩
      · cases post with
        | cons d post =>
            refine ⟨_ :: pre, b, (d :: post).dropLast, ?_, hb, hfront⟩
            rw [List.dropLast_append_of_ne_nil (List.cons_ne_nil _ _),
              List.dropLast_cons_of_ne_nil (List.cons_ne_nil _ _)]
            rfl
        | nil =>
            -- the IP is last: then `cap` others have come, the one that is called among them
            exfalso
            have hnodup : (pre.map Bucket.ip).Nodup := by
              have hall := hbounded.nodup
              rw [List.map_append] at hall
              exact (List.nodup_append.mp hall).1
            have hcard := length_lt_card hnodup hpre (fun c hc => hnew c (List.mem_append_left _ hc))
            rw [List.length_append, List.length_singleton] at hroom
            omega

/-! ### Every run -/

/-- An IP with no call to come may be evicted. -/
theorem keeps_of_forall_ne {a : Ip} : ∀ (calls : List (ℕ × Ip)) (l : Recency Ip), (∀ c ∈ calls, c.2 ≠ a) →
    Keeps cap quota a l calls
  | [], _, _ => trivial
  | (now, ip) :: calls, l, h => by
      refine ⟨?_, keeps_of_forall_ne calls _ (fun c hc => h c (List.mem_cons_of_mem _ hc))⟩
      rintro - ⟨c, hc, hca⟩
      exact absurd hca (h c (List.mem_cons_of_mem _ hc))

theorem exists_next {a : Ip} {calls : List (ℕ × Ip)} (h : ∃ c ∈ calls, c.2 = a) :
    ∃ between now after, calls = between ++ (now, a) :: after ∧ ∀ c ∈ between, c.2 ≠ a := by
  induction calls with
  | nil =>
      obtain ⟨c, hc, -⟩ := h
      cases hc
  | cons c calls ih =>
      by_cases hca : c.2 = a
      · exact ⟨[], c.1, calls, by rw [← hca]; rfl, by simp⟩
      · obtain ⟨d, hd, hda⟩ := h
        have hrest : ∃ d ∈ calls, d.2 = a := by
          obtain rfl | hd := List.mem_cons.mp hd
          · exact absurd hda hca
          · exact ⟨d, hd, hda⟩
        obtain ⟨between, now, after, rfl, hbetween⟩ := ih hrest
        refine ⟨c :: between, now, after, rfl, ?_⟩
        intro e he
        obtain rfl | he := List.mem_cons.mp he
        · exact hca
        · exact hbetween e he

/-- **From one call for an IP to the next**, `others` having come since the last one. -/
theorem keeps_of_ahead {a : Ip} (hcap : 1 ≤ cap) : ∀ (calls : List (ℕ × Ip)) (l : Recency Ip) (others : Finset Ip),
    (∀ between now after, calls = between ++ (now, a) :: after → (∀ c ∈ between, c.2 ≠ a) →
      (others ∪ (between.map Prod.snd).toFinset).card < cap) →
    FewOthers cap a calls → Bounded cap l → Ahead others a l → Keeps cap quota a l calls
  | [], _, _, _, _, _, _ => trivial
  | (now, ip) :: calls, l, others, hclose, hfew, hbounded, hahead => by
      by_cases hip : ip = a
      · subst hip
        refine ⟨fun _ _ => by rw [bucketOf_check_self]; rfl, ?_⟩
        exact keeps_of_ahead hcap calls _ ∅ hfew.next hfew.tail (hbounded.check hcap now ip)
          (ahead_check_self cap quota l now ip)
      · by_cases hnext : ∃ c ∈ calls, c.2 = a
        · have hclose' : ∀ between now' after, calls = between ++ (now', a) :: after → (∀ c ∈ between, c.2 ≠ a) →
              (insert ip others ∪ (between.map Prod.snd).toFinset).card < cap := by
            intro between now' after hcalls hbetween
            have hcard := hclose ((now, ip) :: between) now' after (by rw [hcalls]; rfl) (by
              intro c hc
              obtain rfl | hc := List.mem_cons.mp hc
              · exact hip
              · exact hbetween c hc)
            rwa [List.map_cons, List.toFinset_cons, Finset.union_insert, ← Finset.insert_union] at hcard
          have hsofar : (insert ip others).card < cap := by
            obtain ⟨between, now', after, hcalls, hbetween⟩ := exists_next hnext
            exact lt_of_le_of_lt (Finset.card_le_card Finset.subset_union_left)
              (hclose' between now' after hcalls hbetween)
          have hahead' : Ahead (insert ip others) a (check cap quota l now ip).1 := hahead.check hbounded hip hsofar now
          exact ⟨fun _ _ => hahead'.isSome,
            keeps_of_ahead hcap calls _ _ hclose' hfew.tail (hbounded.check hcap now ip) hahead'⟩
        · have hlast : ∀ c ∈ (now, ip) :: calls, c.2 ≠ a := by
            intro c hc hca
            obtain rfl | hc := List.mem_cons.mp hc
            · exact hip hca
            · exact hnext ⟨c, hc, hca⟩
          exact keeps_of_forall_ne _ l hlast

/-- Before its first call an IP is not tracked. -/
theorem keeps_of_fewOthers {a : Ip} (hcap : 1 ≤ cap) : ∀ (calls : List (ℕ × Ip)) (l : Recency Ip),
    FewOthers cap a calls →
    Bounded cap l → l.bucketOf a = none → Keeps cap quota a l calls
  | [], _, _, _, _ => trivial
  | (now, ip) :: calls, l, hfew, hbounded, hnone => by
      refine ⟨?_, ?_⟩
      · intro hsome
        rw [hnone] at hsome
        cases hsome
      by_cases hip : ip = a
      · subst hip
        exact keeps_of_ahead hcap calls _ ∅ hfew.next hfew.tail (hbounded.check hcap now ip)
          (ahead_check_self cap quota l now ip)
      · apply keeps_of_fewOthers hcap calls _ hfew.tail (hbounded.check hcap now ip)
        obtain hsame | hevicted := bucketOf_check_other cap quota l now hip
        · rw [hsame, hnone]
        · exact hevicted

end Recency

/-! ### A client that is patient -/

omit [DecidableEq Ip] in
/-- Requests at least `1 / quota` seconds apart are all allowed. -/
theorem Bucket.solo_spaced {quota : ℕ} (hquota : 1 ≤ quota) (ip : Ip) : ∀ (times : List ℕ) (b : Bucket Ip),
    (b.lastRefill :: times).IsChain (fun t t' => 1 / (quota : ℚ) ≤ elapsedSecs t' t) → b.Within quota →
      ∀ allowed ∈ (Bucket.solo quota ip (some b) times).2, allowed = true
  | [], _, _, _ => by simp [Bucket.solo]
  | now :: times, b, hchain, hb => by
      obtain ⟨hspaced, hrest⟩ := List.isChain_cons_cons.mp hchain
      have hpos : (0 : ℚ) < quota := by exact_mod_cast hquota
      have hgained : 1 ≤ elapsedSecs now b.lastRefill * quota := (div_le_iff₀ hpos).mp hspaced
      have hfull : (1 : ℚ) ≤ (b.refill quota now).tokens :=
        le_min (hgained.trans (le_add_of_nonneg_left hb.1)) (by exact_mod_cast hquota)
      have hfirst : (Bucket.serve quota now ip (some b)).2 = true := by
        show (consume (b.refill quota now).tokens).2 = true
        unfold consume
        rw [if_pos hfull]
      have ih := Bucket.solo_spaced hquota ip times (Bucket.serve quota now ip (some b)).1
        (by rw [Bucket.serve_lastRefill]; exact hrest) (Bucket.serve_within quota now ip (by rintro c ⟨⟩; exact hb))
      intro allowed hin
      obtain rfl | hin := List.mem_cons.mp hin
      · exact hfirst
      · exact ih allowed hin

omit [DecidableEq Ip] in
theorem Bucket.solo_spaced_new {quota : ℕ} (hquota : 1 ≤ quota) (ip : Ip) {times : List ℕ}
    (hchain : times.IsChain (fun t t' => 1 / (quota : ℚ) ≤ elapsedSecs t' t)) :
    ∀ allowed ∈ (Bucket.solo quota ip none times).2, allowed = true := by
  cases times with
  | nil => simp [Bucket.solo]
  | cons now times =>
      have hfirst : (Bucket.serve quota now ip none).2 = true := by
        show (consume (quota : ℚ)).2 = true
        unfold consume
        rw [if_pos (by exact_mod_cast hquota)]
      have hrest := Bucket.solo_spaced hquota ip times (Bucket.serve quota now ip none).1
        (by rw [Bucket.serve_lastRefill]; exact hchain) (Bucket.serve_within quota now ip (by rintro c ⟨⟩))
      intro allowed hin
      obtain rfl | hin := List.mem_cons.mp hin
      · exact hfirst
      · exact hrest allowed hin

/-! ### The limiter -/

/-- The calls for an IP, all others deleted. -/
def callsOf (a : Ip) (calls : List (ℕ × Ip)) : List (ℕ × Ip) := calls.filter (fun c => c.2 = a)

theorem ip_of_mem_callsOf {a : Ip} {calls : List (ℕ × Ip)} {c : ℕ × Ip} (h : c ∈ callsOf a calls) : c.2 = a := by
  simpa using List.of_mem_filter h

theorem timesOf_callsOf (a : Ip) (calls : List (ℕ × Ip)) : timesOf a (callsOf a calls) = timesOf a calls := by
  unfold timesOf callsOf
  rw [List.filter_filter]
  simp only [Bool.and_self]

theorem fewOthers_callsOf {cap : ℕ} (hcap : 1 ≤ cap) (a : Ip) (calls : List (ℕ × Ip)) :
    FewOthers cap a (callsOf a calls) := by
  intro before now between now' after hcalls hbetween
  have hnone : between = [] := by
    cases between with
    | nil => rfl
    | cons c between =>
        have hin : c ∈ callsOf a calls := by
          rw [hcalls]
          simp
        exact absurd (ip_of_mem_callsOf hin) (hbetween c List.mem_cons_self)
  rw [hnone]
  exact hcap

theorem answersTo_callsOf {a : Ip} {calls : List (ℕ × Ip)} {answers : List Bool}
    (h : answers.length = (callsOf a calls).length) : answersTo a (callsOf a calls) answers = answers := by
  unfold answersTo
  rw [List.filter_eq_self.mpr, List.map_snd_zip h.le]
  rintro ⟨c, allowed⟩ hc
  simpa using ip_of_mem_callsOf (List.of_mem_zip hc).1

namespace LruTokenBuckets

/-- **Isolation.**  A client between any two requests of which fewer than `cap` others appear
is answered as in the run without the others; and if its requests are at least `1 / quota`
seconds apart, it is never denied. -/
theorem answersTo_alone (T : Target) (quotaPerSec : ℕ) (cap : T.Usize) {calls : List (ℕ × Ip)} {a : Ip}
    (hfew : FewOthers (max cap.1 1) a calls) :
    ∃ s answers s' alone, run T (new T quotaPerSec cap) calls = some (s, answers) ∧
      run T (new T quotaPerSec cap) (callsOf a calls) = some (s', alone) ∧ answersTo a calls answers = alone ∧
      ((timesOf a calls).IsChain (fun t t' => 1 / ((max quotaPerSec 1 : ℕ) : ℚ) ≤ elapsedSecs t' t) →
        ∀ allowed ∈ answersTo a calls answers, allowed = true) := by
  have hnew : Represents T (new T quotaPerSec cap : LruTokenBuckets Ip) [] := new_represents T quotaPerSec cap
  have hcap : 1 ≤ max cap.1 1 := le_max_right _ _
  obtain ⟨s, hrun, -, -, -⟩ := run_represents calls _ _ hnew
  obtain ⟨s', halone, -, -, -⟩ := run_represents (callsOf a calls) _ _ hnew
  -- in either run the client is served as by a limiter of its own
  have hsolo : ∀ calls' : List (ℕ × Ip), FewOthers (max cap.1 1) a calls' →
      answersTo a calls' (Recency.run (max cap.1 1) (max quotaPerSec 1) [] calls').2 =
        (Bucket.solo (max quotaPerSec 1) a none (timesOf a calls')).2 := by
    intro calls' hfew'
    have hbounded : Recency.Bounded (max cap.1 1) ([] : Recency Ip) := ⟨List.nodup_nil, Nat.zero_le _⟩
    exact Recency.run_solo calls' [] none (Recency.keeps_of_fewOthers hcap calls' [] hfew' hbounded rfl) (fun _ => rfl)
  have hanswers := hsolo calls hfew
  have hothers := hsolo (callsOf a calls) (fewOthers_callsOf hcap a calls)
  rw [answersTo_callsOf (Recency.run_length _ _), timesOf_callsOf] at hothers
  refine ⟨s, _, s', _, hrun, halone, hanswers.trans hothers.symm, ?_⟩
  intro hchain allowed hin
  have hin' : allowed ∈ (Bucket.solo (max quotaPerSec 1) a none (timesOf a calls)).2 := hanswers ▸ hin
  exact Bucket.solo_spaced_new (le_max_right _ _) a hchain allowed hin'

/-- Two clients, two slots: the first sends a request a second. -/
theorem answersTo_alone_two : ∃ (s : LruTokenBuckets ℕ) (answers : List Bool),
    run Target.wasm32 (new Target.wasm32 1 ⟨2, by decide⟩) [(0, 7), (0, 8), (1, 8), (1000000000, 7)] =
        some (s, answers) ∧
      ∀ allowed ∈ answersTo 7 [(0, 7), (0, 8), (1, 8), (1000000000, 7)] answers, allowed = true := by
  let calls : List (ℕ × ℕ) := [(0, 7), (0, 8), (1, 8), (1000000000, 7)]
  have hfew : FewOthers (max 2 1) 7 calls := by
    intro before now between now' after hcalls hbetween
    have hothers : (between.map Prod.snd).toFinset ⊆ {8} := by
      intro i hi
      obtain ⟨c, hc, rfl⟩ := List.mem_map.mp (List.mem_toFinset.mp hi)
      have hcall : ∀ c ∈ calls, c.2 = 7 ∨ c.2 = 8 := by decide
      obtain hself | hother := hcall c (by rw [hcalls]; simp [hc])
      · exact absurd hself (hbetween c hc)
      · rw [hother]
        exact Finset.mem_singleton_self 8
    exact lt_of_le_of_lt (Finset.card_le_card hothers) (by decide)
  have hchain : (timesOf 7 calls).IsChain (fun t t' => 1 / ((max 1 1 : ℕ) : ℚ) ≤ elapsedSecs t' t) := by
    have htimes : timesOf 7 calls = [0, 1000000000] := by decide
    rw [htimes]
    norm_num [elapsedSecs]
  obtain ⟨s, answers, s', alone, hrun, -, -, hallowed⟩ := answersTo_alone Target.wasm32 1 ⟨2, by decide⟩ hfew
  exact ⟨s, answers, hrun, hallowed hchain⟩

end LruTokenBuckets

end PurpleWolf.Reputation
