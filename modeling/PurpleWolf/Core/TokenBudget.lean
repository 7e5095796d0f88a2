import PurpleWolf.Core.TokenBucketsRefinement

/-! # What one client may spend

A client that is not evicted is served as if it were alone: `Bucket.solo` is a limiter of
one client, and `Recency.run_solo` says that the answers to the client are those of `solo`.

A bucket holds between 0 and `quota` tokens and gains `quota` tokens a second, so in a
window of time it pays for at most `quota` requests and `quota` more for every second
(`allowedIn_le`). -/

namespace PurpleWolf.Reputation

variable {Ip : Type}

/-! ### Time -/

theorem elapsedSecs_nonneg (now lastRefill : ℕ) : 0 ≤ elapsedSecs now lastRefill := by
  unfold elapsedSecs
  positivity

theorem elapsedSecs_anti {from₁ from₂ : ℕ} (h : from₁ ≤ from₂) (now : ℕ) :
    elapsedSecs now from₂ ≤ elapsedSecs now from₁ := by
  have hsub : ((now - from₂ : ℕ) : ℚ) ≤ ((now - from₁ : ℕ) : ℚ) := by
    exact_mod_cast Nat.sub_le_sub_left h now
  unfold elapsedSecs
  gcongr

theorem elapsedSecs_add {start now later : ℕ} (h : start ≤ now) (h' : now ≤ later) :
    elapsedSecs now start + elapsedSecs later now = elapsedSecs later start := by
  have hsum : (now - start) + (later - now) = later - start := by omega
  unfold elapsedSecs
  rw [← add_div, ← Nat.cast_add, hsum]

/-! ### A limiter of one client -/

namespace Bucket

/-- One request of a client, whose bucket is there or not. -/
def serve (quota now : ℕ) (ip : Ip) : Option (Bucket Ip) → Bucket Ip × Bool
  | some b => (b.refill quota now).spend
  | none => (fresh quota now ip).spend

/-- The requests of a client, at the given times; the answers come in order. -/
def solo (quota : ℕ) (ip : Ip) : Option (Bucket Ip) → List ℕ → Option (Bucket Ip) × List Bool
  | b, [] => (b, [])
  | b, now :: times =>
      ((solo quota ip (some (serve quota now ip b).1) times).1,
        (serve quota now ip b).2 :: (solo quota ip (some (serve quota now ip b).1) times).2)

/-- **Between empty and full.** -/
def Within (quota : ℕ) (b : Bucket Ip) : Prop := 0 ≤ b.tokens ∧ b.tokens ≤ quota

theorem fresh_within (quota now : ℕ) (ip : Ip) : Within quota (fresh quota now ip) :=
  ⟨Nat.cast_nonneg quota, le_rfl⟩

theorem Within.refill {quota : ℕ} {b : Bucket Ip} (h : Within quota b) (now : ℕ) :
    Within quota (b.refill quota now) := by
  refine ⟨le_min ?_ (Nat.cast_nonneg quota), min_le_right _ _⟩
  exact add_nonneg h.1 (mul_nonneg (elapsedSecs_nonneg _ _) (Nat.cast_nonneg quota))

theorem spend_tokens (b : Bucket Ip) : b.spend.1.tokens + (if b.spend.2 then 1 else 0) = b.tokens := by
  unfold spend consume
  by_cases h : 1 ≤ b.tokens
  · rw [if_pos h]
    exact sub_add_cancel b.tokens 1
  · rw [if_neg h]
    exact add_zero b.tokens

theorem Within.spend {quota : ℕ} {b : Bucket Ip} (h : Within quota b) : Within quota b.spend.1 := by
  unfold Bucket.spend consume
  split_ifs with hone
  · exact ⟨sub_nonneg.mpr hone, (sub_le_self _ zero_le_one).trans h.2⟩
  · exact h

theorem serve_lastRefill (quota now : ℕ) (ip : Ip) (b : Option (Bucket Ip)) :
    (serve quota now ip b).1.lastRefill = now := by
  cases b <;> rfl

theorem serve_ip {quota now : ℕ} {ip : Ip} {b : Option (Bucket Ip)} (h : ∀ c ∈ b, c.ip = ip) :
    (serve quota now ip b).1.ip = ip := by
  cases b with
  | none => rfl
  | some b => exact h b rfl

theorem serve_within (quota now : ℕ) (ip : Ip) {b : Option (Bucket Ip)} (h : ∀ c ∈ b, Within quota c) :
    Within quota (serve quota now ip b).1 := by
  cases b with
  | none => exact (fresh_within quota now ip).spend
  | some b => exact ((h b rfl).refill now).spend

/-- Serving a request leaves at most `quota`, less what it has cost. -/
theorem serve_tokens_le (quota now : ℕ) (ip : Ip) (b : Option (Bucket Ip)) :
    (serve quota now ip b).1.tokens + (if (serve quota now ip b).2 then 1 else 0) ≤ quota := by
  cases b with
  | none => exact (spend_tokens _).le
  | some b => exact (spend_tokens _).trans_le (min_le_right _ _)

/-- **What a bucket pays for** until `hi`: its tokens, and those that it gains. -/
theorem solo_count_le (quota : ℕ) (ip : Ip) {hi : ℕ} : ∀ (times : List ℕ) (b : Bucket Ip),
    (b.lastRefill :: times).Pairwise (· ≤ ·) → (∀ t ∈ times, t ≤ hi) → Within quota b →
      ((solo quota ip (some b) times).2.count true : ℚ) ≤ b.tokens + elapsedSecs hi b.lastRefill * quota
  | [], b, _, _, hb => add_nonneg hb.1 (mul_nonneg (elapsedSecs_nonneg _ _) (Nat.cast_nonneg quota))
  | now :: times, b, hsorted, hhi, hb => by
      obtain ⟨hlast, hrest⟩ := List.pairwise_cons.mp hsorted
      have hnow := hlast now List.mem_cons_self
      have ih := solo_count_le quota ip times (serve quota now ip (some b)).1
        (by rw [serve_lastRefill]; exact hrest) (fun t ht => hhi t (List.mem_cons_of_mem _ ht))
        (serve_within quota now ip (by rintro c ⟨⟩; exact hb))
      rw [serve_lastRefill] at ih
      have hpaid : (serve quota now ip (some b)).1.tokens + (if (serve quota now ip (some b)).2 then 1 else 0) ≤
          b.tokens + elapsedSecs now b.lastRefill * quota :=
        (spend_tokens _).trans_le (min_le_left _ _)
      have htime := elapsedSecs_add hnow (hhi now List.mem_cons_self)
      unfold solo
      rw [List.count_cons, ← htime, add_mul]
      push_cast
      cases hallowed : (serve quota now ip (some b)).2
      all_goals
        rw [hallowed] at hpaid
        simp only [Bool.false_eq_true, if_false, if_true, beq_self_eq_true, beq_iff_eq] at hpaid ⊢
        linarith

/-- **The bound.**  In a window of time a client is allowed `quota` requests, and `quota` more
for every second of it. -/
theorem solo_window_le (quota : ℕ) (ip : Ip) {lo hi : ℕ} {times : List ℕ} (hsorted : times.Pairwise (· ≤ ·))
    (hlo : ∀ t ∈ times, lo ≤ t) (hhi : ∀ t ∈ times, t ≤ hi) {b : Option (Bucket Ip)} (hb : ∀ c ∈ b, Within quota c) :
    ((solo quota ip b times).2.count true : ℚ) ≤ quota * elapsedSecs hi lo + quota := by
  have hgain := mul_nonneg (elapsedSecs_nonneg hi lo) (Nat.cast_nonneg (α := ℚ) quota)
  cases times with
  | nil =>
      show ((0 : ℕ) : ℚ) ≤ _
      push_cast
      linarith [Nat.cast_nonneg (α := ℚ) quota]
  | cons now times =>
      have hrest := solo_count_le quota ip times (serve quota now ip b).1
        (by rw [serve_lastRefill]; exact hsorted) (fun t ht => hhi t (List.mem_cons_of_mem _ ht))
        (serve_within quota now ip hb)
      rw [serve_lastRefill] at hrest
      have hfirst := serve_tokens_le quota now ip b
      have hspan := mul_le_mul_of_nonneg_right (elapsedSecs_anti (hlo now List.mem_cons_self) hi)
        (Nat.cast_nonneg (α := ℚ) quota)
      unfold solo
      rw [List.count_cons]
      push_cast
      cases hallowed : (serve quota now ip b).2
      all_goals
        rw [hallowed] at hfirst
        simp only [Bool.false_eq_true, if_false, if_true, beq_self_eq_true, beq_iff_eq] at hfirst ⊢
        linarith

end Bucket

/-! ### One client among others -/

/-- The times of the calls for an IP. -/
def timesOf [DecidableEq Ip] (ip : Ip) (calls : List (ℕ × Ip)) : List ℕ :=
  (calls.filter (fun c => c.2 = ip)).map Prod.fst

/-- The answers to the calls for an IP. -/
def answersTo [DecidableEq Ip] (ip : Ip) (calls : List (ℕ × Ip)) (answers : List Bool) : List Bool :=
  ((calls.zip answers).filter (fun c => c.1.2 = ip)).map Prod.snd

namespace Recency

variable [DecidableEq Ip] {cap quota : ℕ} {l : Recency Ip}

/-- The bucket of an IP, if it is tracked. -/
def bucketOf (l : Recency Ip) (ip : Ip) : Option (Bucket Ip) := l.find? (fun b => b.ip = ip)

theorem mem_of_bucketOf {ip : Ip} {b : Bucket Ip} (h : b ∈ l.bucketOf ip) : b ∈ l := List.mem_of_find?_eq_some h

theorem ip_of_bucketOf {ip : Ip} {b : Bucket Ip} (h : b ∈ l.bucketOf ip) : b.ip = ip := by
  simpa using List.find?_some h

theorem bucketOf_isSome {ip : Ip} : (l.bucketOf ip).isSome ↔ ∃ b ∈ l, b.ip = ip := by
  unfold bucketOf
  rw [List.find?_isSome]
  simp

theorem check_eq (cap quota : ℕ) (l : Recency Ip) (now : ℕ) (ip : Ip) : ∃ rest, check cap quota l now ip =
    ((Bucket.serve quota now ip (l.bucketOf ip)).1 :: rest, (Bucket.serve quota now ip (l.bucketOf ip)).2) := by
  unfold check bucketOf
  cases l.find? (fun b => b.ip = ip) with
  | none => exact ⟨_, rfl⟩
  | some b => exact ⟨_, rfl⟩

theorem bucketOf_check_self (l : Recency Ip) (now : ℕ) (ip : Ip) :
    (check cap quota l now ip).1.bucketOf ip = some (Bucket.serve quota now ip (l.bucketOf ip)).1 := by
  obtain ⟨rest, hcheck⟩ := check_eq cap quota l now ip
  have hip : (Bucket.serve quota now ip (l.bucketOf ip)).1.ip = ip := Bucket.serve_ip (fun c hc => ip_of_bucketOf hc)
  rw [hcheck]
  exact List.find?_cons_of_pos (decide_eq_true hip)

/-- The other buckets are as before, or one of them is evicted. -/
theorem bucketOf_check_other (cap quota : ℕ) (l : Recency Ip) (now : ℕ) {ip a : Ip} (h : ip ≠ a) :
    (check cap quota l now ip).1.bucketOf a = l.bucketOf a ∨ (check cap quota l now ip).1.bucketOf a = none := by
  have hskip : ∀ (b : Bucket Ip) (rest : Recency Ip), b.ip = ip → bucketOf (b :: rest) a = bucketOf rest a := by
    intro b rest hb
    exact List.find?_cons_of_neg (by simpa [hb] using h)
  unfold check
  cases hfind : l.find? (fun b => b.ip = ip) with
  | some b =>
      left
      have hb : b.ip = ip := by simpa using List.find?_some hfind
      simp only
      rw [hskip ((b.refill quota now).spend).1 _ hb]
      unfold bucketOf
      rw [List.find?_filter]
      congr 1
      funext c
      by_cases hc : c.ip = a
      · simp [hc, Ne.symm h]
      · simp [hc]
  | none =>
      simp only
      rw [hskip ((Bucket.fresh quota now ip).spend).1 _ rfl]
      split_ifs
      · exact Or.inl rfl
      · cases hlast : bucketOf l.dropLast a with
        | none => exact Or.inr rfl
        | some b =>
            left
            exact ((List.dropLast_prefix l).find?_eq_some hlast).symm

/-- The IP is not evicted as long as it has calls to come. -/
def Keeps (cap quota : ℕ) (a : Ip) : Recency Ip → List (ℕ × Ip) → Prop
  | _, [] => True
  | l, (now, ip) :: calls =>
      ((l.bucketOf a).isSome → (∃ c ∈ calls, c.2 = a) → ((check cap quota l now ip).1.bucketOf a).isSome) ∧
        Keeps cap quota a (check cap quota l now ip).1 calls

theorem run_cons (l : Recency Ip) (now : ℕ) (ip : Ip) (calls : List (ℕ × Ip)) :
    run cap quota l ((now, ip) :: calls) =
      ((run cap quota (check cap quota l now ip).1 calls).1,
        (check cap quota l now ip).2 :: (run cap quota (check cap quota l now ip).1 calls).2) := rfl

/-- **Others do not matter**: a client that is not evicted is answered as if it were alone. -/
theorem run_solo {a : Ip} : ∀ (calls : List (ℕ × Ip)) (l : Recency Ip) (b : Option (Bucket Ip)),
    Keeps cap quota a l calls → ((∃ c ∈ calls, c.2 = a) → l.bucketOf a = b) →
      answersTo a calls (run cap quota l calls).2 = (Bucket.solo quota a b (timesOf a calls)).2
  | [], _, _, _, _ => rfl
  | (now, ip) :: calls, l, b, ⟨hkept, hkeeps⟩, hb => by
      rw [run_cons]
      unfold answersTo timesOf
      rw [List.zip_cons_cons]
      by_cases hip : ip = a
      · subst hip
        have hb := hb ⟨_, List.mem_cons_self, rfl⟩
        have ih := run_solo calls _ (some (Bucket.serve quota now ip b).1) hkeeps
          (fun _ => by rw [bucketOf_check_self, hb])
        obtain ⟨rest, hcheck⟩ := check_eq cap quota l now ip
        rw [List.filter_cons_of_pos (by simp), List.filter_cons_of_pos (by simp), List.map_cons, List.map_cons,
          Bucket.solo]
        unfold answersTo timesOf at ih
        rw [ih, hcheck, hb]
      · rw [List.filter_cons_of_neg (by simpa using hip), List.filter_cons_of_neg (by simpa using hip)]
        apply run_solo calls _ b hkeeps
        rintro ⟨c, hc, hca⟩
        have hbefore := hb ⟨c, List.mem_cons_of_mem _ hc, hca⟩
        obtain hsame | hnone := bucketOf_check_other cap quota l now hip
        · exact hsame.trans hbefore
        · cases hbucket : l.bucketOf a with
          | none => rw [hnone, ← hbefore, hbucket]
          | some b' =>
              have hsome := hkept (by rw [hbucket]; rfl) ⟨c, hc, hca⟩
              rw [hnone] at hsome
              cases hsome

/-! ### Reachable lists -/

theorem check_within (h : ∀ b ∈ l, b.Within quota) (now : ℕ) (ip : Ip) :
    ∀ b ∈ (check cap quota l now ip).1, b.Within quota := by
  have hserved : Bucket.Within quota (Bucket.serve quota now ip (l.bucketOf ip)).1 :=
    Bucket.serve_within quota now ip (fun c hc => h c (mem_of_bucketOf hc))
  unfold bucketOf at hserved
  unfold check
  cases hfind : l.find? (fun b => b.ip = ip) with
  | some b =>
      rw [hfind] at hserved
      rintro c (_ | ⟨_, hc⟩)
      · exact hserved
      · exact h c (List.mem_of_mem_filter hc)
  | none =>
      rw [hfind] at hserved
      rintro c (_ | ⟨_, hc⟩)
      · exact hserved
      · split_ifs at hc
        · exact h c hc
        · exact h c (List.mem_of_mem_dropLast hc)

theorem run_within : ∀ (calls : List (ℕ × Ip)) (l : Recency Ip), (∀ b ∈ l, b.Within quota) →
    ∀ b ∈ (run cap quota l calls).1, b.Within quota
  | [], _, h => h
  | (now, ip) :: calls, _, h => run_within calls _ (check_within h now ip)

theorem run_append : ∀ (calls more : List (ℕ × Ip)) (l : Recency Ip), run cap quota l (calls ++ more) =
    ((run cap quota (run cap quota l calls).1 more).1,
      (run cap quota l calls).2 ++ (run cap quota (run cap quota l calls).1 more).2)
  | [], _, _ => rfl
  | (now, ip) :: calls, more, l => by
      rw [List.cons_append, run_cons, run_cons, run_append]
      rfl

theorem run_length : ∀ (calls : List (ℕ × Ip)) (l : Recency Ip), (run cap quota l calls).2.length = calls.length
  | [], _ => rfl
  | (now, ip) :: calls, l => by
      rw [run_cons]
      exact congrArg (· + 1) (run_length calls _)

end Recency

/-! ### A window of time -/

/-- Calls in a window of time. -/
def InWindow (lo hi : ℕ) (c : ℕ × Ip) : Prop := lo ≤ c.1 ∧ c.1 ≤ hi

/-- The number of calls for an IP that have been allowed in a window of time. -/
def allowedIn [DecidableEq Ip] (ip : Ip) (lo hi : ℕ) (calls : List (ℕ × Ip)) (answers : List Bool) : ℕ :=
  ((calls.zip answers).filter (fun c => c.1.2 = ip ∧ (lo ≤ c.1.1 ∧ c.1.1 ≤ hi) ∧ c.2 = true)).length

section Window

variable [DecidableEq Ip] {ip : Ip} {lo hi : ℕ}

theorem allowedIn_append {calls more : List (ℕ × Ip)} {answers : List Bool} (h : answers.length = calls.length)
    (others : List Bool) : allowedIn ip lo hi (calls ++ more) (answers ++ others) =
      allowedIn ip lo hi calls answers + allowedIn ip lo hi more others := by
  unfold allowedIn
  rw [List.zip_append h.symm, List.filter_append, List.length_append]

theorem allowedIn_outside {calls : List (ℕ × Ip)} (h : ∀ c ∈ calls, ¬ InWindow lo hi c) (answers : List Bool) :
    allowedIn ip lo hi calls answers = 0 := by
  unfold allowedIn
  rw [List.length_eq_zero_iff, List.filter_eq_nil_iff]
  rintro ⟨c, allowed⟩ hc hp
  simp only [decide_eq_true_eq] at hp
  exact h c (List.of_mem_zip hc).1 hp.2.1

theorem allowedIn_inside {calls : List (ℕ × Ip)} (h : ∀ c ∈ calls, InWindow lo hi c) (answers : List Bool) :
    allowedIn ip lo hi calls answers = (answersTo ip calls answers).count true := by
  unfold allowedIn answersTo
  rw [List.count_eq_countP, List.countP_map, List.countP_filter, List.countP_eq_length_filter]
  congr 1
  apply List.filter_congr
  rintro ⟨c, allowed⟩ hc
  have hin := h c (List.of_mem_zip hc).1
  unfold InWindow at hin
  simp [hin, Bool.and_comm]

omit [DecidableEq Ip] in
/-- Calls in the order of time: those before the window, in it, and after it. -/
theorem exists_window {calls : List (ℕ × Ip)} (h : calls.Pairwise (fun c d => c.1 ≤ d.1)) (lo hi : ℕ) :
    ∃ before window after, calls = before ++ (window ++ after) ∧ (∀ c ∈ before, ¬ InWindow lo hi c) ∧
      (∀ c ∈ window, InWindow lo hi c) ∧ ∀ c ∈ after, ¬ InWindow lo hi c := by
  induction calls with
  | nil => exact ⟨[], [], [], rfl, by simp, by simp, by simp⟩
  | cons c calls ih =>
      obtain ⟨hfirst, hrest⟩ := List.pairwise_cons.mp h
      obtain ⟨before, window, after, rfl, hbefore, hwindow, hafter⟩ := ih hrest
      by_cases hlo : c.1 < lo
      · refine ⟨c :: before, window, after, rfl, ?_, hwindow, hafter⟩
        intro d hd hin
        obtain rfl | hd := List.mem_cons.mp hd
        · exact absurd hin.1 (not_le.mpr hlo)
        · exact hbefore d hd hin
      · by_cases hhi : hi < c.1
        · refine ⟨[], [], c :: (before ++ (window ++ after)), rfl, by simp, by simp, ?_⟩
          intro d hd hin
          obtain rfl | hd := List.mem_cons.mp hd
          · exact absurd hin.2 (not_le.mpr hhi)
          · exact absurd hin.2 (not_le.mpr (lt_of_lt_of_le hhi (hfirst d hd)))
        · have hc : InWindow lo hi c := ⟨not_lt.mp hlo, not_lt.mp hhi⟩
          cases before with
          | nil =>
              refine ⟨[], c :: window, after, rfl, by simp, ?_, hafter⟩
              intro d hd
              obtain rfl | hd := List.mem_cons.mp hd
              · exact hc
              · exact hwindow d hd
          | cons d before =>
              refine ⟨[], [c], d :: before ++ (window ++ after), rfl, by simp, by simpa using hc, ?_⟩
              have hlate := hfirst d (by simp)
              have hout := hbefore d List.mem_cons_self
              intro e he hin
              have hde : d.1 ≤ e.1 := by
                obtain rfl | he := List.mem_cons.mp he
                · exact le_rfl
                · exact (List.pairwise_cons.mp hrest).1 e he
              exact hout ⟨hc.1.trans hlate, hde.trans hin.2⟩

end Window

/-! ### The limiter -/

namespace LruTokenBuckets

variable [DecidableEq Ip] {T : Target} {s : LruTokenBuckets Ip} {l : Recency Ip}

theorem Represents.isSome_index (h : Represents T s l) (ip : Ip) : (s.index ip).isSome ↔ (l.bucketOf ip).isSome := by
  rw [Recency.bucketOf_isSome, ← h.layout.tracked ip, Option.isSome_iff_exists]

omit [DecidableEq Ip] in
theorem Represents.node (h : Represents T s l) {ip : Ip} {slot : ℕ} {n : Node Ip} (hslot : s.index ip = some slot)
    (hn : s.slab[slot]? = some n) : ∃ b ∈ l, b.tokens = n.tokens := by
  have hlayout := h.layout
  have hip := hlayout.own_key ip slot hslot
  have hvisit : slot ∈ recency T s := hlayout.visits.mem_iff.mpr (List.mem_range.mpr (hlayout.index_lt ip slot hslot))
  have hbucket : s.bucketAt slot ∈ l.map some := hlayout.buckets ▸ List.mem_map_of_mem hvisit
  obtain ⟨b, hb, hbe⟩ := List.mem_map.mp hbucket
  unfold ipAt at hip
  rw [hn, Option.bind_some] at hip
  unfold bucketAt Node.bucket at hbe
  rw [hn, Option.bind_some, hip, Option.map_some] at hbe
  cases hbe
  exact ⟨_, hb, rfl⟩

variable (T)

/-- **No eviction**: no call in the window of time takes the bucket of the IP away. -/
def NotEvicted (s : LruTokenBuckets Ip) (calls : List (ℕ × Ip)) (a : Ip) (lo hi : ℕ) : Prop :=
  ∀ before now ip after s₁ answers s₂ allowed, calls = before ++ (now, ip) :: after → InWindow lo hi (now, ip) →
    s.run T before = some (s₁, answers) → s₁.check T now ip = some (s₂, allowed) →
      (s₁.index a).isSome → (s₂.index a).isSome

variable {T}

theorem NotEvicted.keeps {calls : List (ℕ × Ip)} {a : Ip} {lo hi : ℕ} (h : NotEvicted T s calls a lo hi)
    (hrep : Represents T s l) {after : List (ℕ × Ip)} : ∀ (window before : List (ℕ × Ip)),
      calls = before ++ (window ++ after) → (∀ c ∈ window, InWindow lo hi c) →
        Recency.Keeps s.cap s.quotaPerSec a (Recency.run s.cap s.quotaPerSec l before).1 window
  | [], _, _, _ => trivial
  | (now, ip) :: window, before, hcalls, hwindow => by
      obtain ⟨s₁, hrun, hrep₁, hcap₁, hquota₁⟩ := run_represents before s l hrep
      obtain ⟨s₂, hcheck, hrep₂, -, -⟩ := check_represents hrep₁ now ip
      rw [hcap₁, hquota₁] at hcheck hrep₂
      refine ⟨?_, ?_⟩
      · intro htracked _
        rw [← hrep₂.isSome_index a]
        exact h before now ip (window ++ after) s₁ _ s₂ _ hcalls (hwindow _ List.mem_cons_self) hrun hcheck
          ((hrep₁.isSome_index a).mpr htracked)
      · have hcalls' : calls = (before ++ [(now, ip)]) ++ (window ++ after) := by
          rw [hcalls]
          simp
        have ih := NotEvicted.keeps h hrep window _ hcalls' (fun c hc => hwindow c (List.mem_cons_of_mem _ hc))
        rw [Recency.run_append] at ih
        exact ih

/-- A client that is alone is not evicted. -/
theorem Represents.notEvicted_of_alone (h : Represents T s l) {calls : List (ℕ × Ip)} {a : Ip}
    (halone : ∀ c ∈ calls, c.2 = a) (lo hi : ℕ) : NotEvicted T s calls a lo hi := by
  rintro before now ip after s₁ answers s₂ allowed rfl - hrun hcheck -
  have hip : ip = a := halone (now, ip) (by simp)
  subst hip
  obtain ⟨s₁', hrun', hrep₁, -, -⟩ := run_represents before s l h
  rw [hrun] at hrun'
  cases hrun'
  obtain ⟨s₂', hcheck', hrep₂, -, -⟩ := check_represents hrep₁ now ip
  rw [hcheck] at hcheck'
  cases hcheck'
  rw [hrep₂.isSome_index ip, Recency.bucketOf_check_self]
  rfl

/-- **The token bucket.**  In every run with times that do not decrease, every tracked IP has
between 0 and `quota` tokens; and in every window of time in which an IP is not evicted it
is allowed at most `quota` requests, and `quota` more for every second of the window. -/
theorem allowedIn_le (T : Target) {quota : ℕ} (hquota : 1 ≤ quota) (cap : T.Usize) {calls : List (ℕ × Ip)}
    (hsorted : calls.Pairwise (fun c d => c.1 ≤ d.1)) :
    ∃ s answers, run T (new T quota cap) calls = some (s, answers) ∧
      (∀ ip slot n, s.index ip = some slot → s.slab[slot]? = some n → 0 ≤ n.tokens ∧ n.tokens ≤ quota) ∧
      ∀ a lo hi, NotEvicted T (new T quota cap) calls a lo hi →
        (allowedIn a lo hi calls answers : ℚ) ≤ quota * elapsedSecs hi lo + quota := by
  have hnew : Represents T (new T quota cap : LruTokenBuckets Ip) [] := new_represents T quota cap
  have hclamp : (new T quota cap : LruTokenBuckets Ip).quotaPerSec = quota := max_eq_left hquota
  obtain ⟨s, hrun, hrep, -, -⟩ := run_represents calls _ _ hnew
  rw [hclamp] at hrun hrep
  refine ⟨s, _, hrun, ?_, ?_⟩
  · intro ip slot n hslot hn
    obtain ⟨b, hb, htokens⟩ := hrep.node hslot hn
    rw [← htokens]
    exact Recency.run_within calls [] (by simp) b hb
  · intro a lo hi hkept
    obtain ⟨before, window, after, hcalls, hbefore, hwindow, hafter⟩ := exists_window hsorted lo hi
    have hkeeps := hkept.keeps hnew window before hcalls hwindow
    rw [hclamp] at hkeeps
    -- only the calls in the window count, and to them the client is answered as if alone
    have hsolo := Recency.run_solo window _ _ hkeeps (fun _ => rfl)
    rw [hcalls, Recency.run_append, Recency.run_append]
    simp only
    rw [allowedIn_append (Recency.run_length _ _), allowedIn_append (Recency.run_length _ _), allowedIn_outside hbefore,
      allowedIn_outside hafter, allowedIn_inside hwindow, hsolo, zero_add, add_zero]
    have htimes : ∀ t ∈ timesOf a window, lo ≤ t ∧ t ≤ hi := by
      intro t ht
      obtain ⟨c, hc, rfl⟩ := List.mem_map.mp ht
      exact hwindow c (List.mem_of_mem_filter hc)
    have hordered : (timesOf a window).Pairwise (· ≤ ·) := by
      have hpairs : (before ++ (window ++ after)).Pairwise (fun c d => c.1 ≤ d.1) := hcalls ▸ hsorted
      have hmid := (List.pairwise_append.mp (List.pairwise_append.mp hpairs).2.1).1
      exact List.pairwise_map.mpr (hmid.filter _)
    apply Bucket.solo_window_le quota a hordered (fun t ht => (htimes t ht).1) (fun t ht => (htimes t ht).2)
    intro c hc
    exact Recency.run_within before [] (by simp) c (Recency.mem_of_bucketOf hc)

/-- Three requests at once and one half a second later, with a quota of two. -/
theorem allowedIn_le_burst : ∃ (s : LruTokenBuckets ℕ) (answers : List Bool),
    run Target.wasm32 (new Target.wasm32 2 ⟨1, Target.wasm32.one_le⟩) [(0, 7), (0, 7), (0, 7), (500000000, 7)] =
        some (s, answers) ∧
      (allowedIn 7 0 500000000 [(0, 7), (0, 7), (0, 7), (500000000, 7)] answers : ℚ) ≤
        2 * elapsedSecs 500000000 0 + 2 := by
  let calls : List (ℕ × ℕ) := [(0, 7), (0, 7), (0, 7), (500000000, 7)]
  have hsorted : calls.Pairwise (fun c d => c.1 ≤ d.1) := by decide
  have halone : ∀ c ∈ calls, c.2 = 7 := by decide
  obtain ⟨s, answers, hrun, -, hbound⟩ :=
    allowedIn_le Target.wasm32 one_le_two ⟨1, Target.wasm32.one_le⟩ hsorted
  exact ⟨s, answers, hrun, hbound 7 0 500000000 ((new_represents _ _ _).notEvicted_of_alone halone _ _)⟩

end LruTokenBuckets

end PurpleWolf.Reputation
