import PurpleWolf.Core.Detectors
import PurpleWolf.Core.TokenBucketsRefinement

/-! # The reputation detector (`detectors/reputation.rs`)

A deny list, and the rate limiter of `TokenBuckets`.  The limiter is the only state a
detector keeps between requests.  `Limiter` carries the proof that its slab is well formed,
so that a check never fails.

The time of a request is what the clock reads while it is checked. -/

namespace PurpleWolf.Reputation

/-! ### The deny list -/

def HASHED_DENY_LIST_MIN_LEN : ℕ := 64

/-- Short lists are searched, long ones hashed. -/
inductive DenyList where
  | linear (entries : List IpAddr)
  | hashed (entries : Finset IpAddr)

namespace DenyList

def new (entries : List IpAddr) : DenyList :=
  if entries.length < HASHED_DENY_LIST_MIN_LEN then .linear entries else .hashed entries.toFinset

def contains : DenyList → IpAddr → Bool
  | linear entries, ip => entries.contains ip
  | hashed entries, ip => decide (ip ∈ entries)

theorem contains_new (entries : List IpAddr) (ip : IpAddr) : (new entries).contains ip = entries.contains ip := by
  unfold new
  split_ifs
  · rfl
  · unfold contains
    rw [List.contains_eq_mem]
    simp only [List.mem_toFinset]

end DenyList

/-! ### The limiter -/

/-- A rate limiter whose slab represents some list of buckets. -/
def Limiter (T : Target) := {s : LruTokenBuckets IpAddr // ∃ l, LruTokenBuckets.Represents T s l}

namespace Limiter

variable {T : Target}

def new (quotaPerSec : ℕ) (cap : T.Usize) : Limiter T :=
  ⟨LruTokenBuckets.new T quotaPerSec cap, [], LruTokenBuckets.new_represents T quotaPerSec cap⟩

theorem check_isSome (s : Limiter T) (now : ℕ) (ip : IpAddr) : (s.1.check T now ip).isSome := by
  obtain ⟨s, l, h⟩ := s
  obtain ⟨s', hcheck, -⟩ := LruTokenBuckets.check_represents h now ip
  rw [hcheck]
  rfl

theorem check_wellFormed (s : Limiter T) (now : ℕ) (ip : IpAddr) :
    ∃ l, LruTokenBuckets.Represents T ((s.1.check T now ip).get (s.check_isSome now ip)).1 l := by
  obtain ⟨s, l, h⟩ := s
  obtain ⟨s', hcheck, hrep, -⟩ := LruTokenBuckets.check_represents h now ip
  simp only [hcheck, Option.get_some]
  exact ⟨_, hrep⟩

/-- A check of a well-formed limiter. -/
def check (s : Limiter T) (now : ℕ) (ip : IpAddr) : Limiter T × Bool :=
  (⟨((s.1.check T now ip).get (s.check_isSome now ip)).1, s.check_wellFormed now ip⟩,
    ((s.1.check T now ip).get (s.check_isSome now ip)).2)

end Limiter

/-! ### The detector -/

/-- What a detector finds when it is run: the limiter, and the clock. -/
structure Env (T : Target) where
  limiter : Limiter T
  now : ℕ

def ipDenied (ip : IpAddr) : Verdict :=
  ⟨.reputation, "ip_denied".toList, .high, "source IP ".toList ++ ip.display ++ " on deny list".toList⟩

def rateLimited (ip : IpAddr) : Verdict :=
  ⟨.reputation, "rate_limited".toList, .medium, "source IP ".toList ++ ip.display ++ " exceeded rate quota".toList⟩

variable {T : Target}

/-- `ReputationDetector::inspect`. -/
def inspect (denyList : DenyList) (req : Request) (env : Env T) : List Verdict × Env T :=
  let denied := if denyList.contains req.sourceIp then [ipDenied req.sourceIp] else []
  let (limiter, allowed) := env.limiter.check env.now req.sourceIp
  (denied ++ (if allowed then [] else [rateLimited req.sourceIp]), { env with limiter := limiter })

def detector (denyList : DenyList) : Detector (Env T) where
  group := .reputation
  inspect := inspect denyList

theorem group_of_mem {denyList : DenyList} {req : Request} {env : Env T} {v : Verdict}
    (h : v ∈ (inspect denyList req env).1) : v.group = .reputation := by
  unfold inspect at h
  rcases List.mem_append.mp h with h | h
  all_goals
    split_ifs at h
    all_goals
      first
      | cases h; done
      | rw [List.mem_singleton.mp h]
        rfl

end PurpleWolf.Reputation
