import PurpleWolf.Relay.EnrichUrl
import PurpleWolf.Relay.Runtime

/-! # The HTTP enricher and its cache (`enrichers/http.rs`)

An HTTP enricher asks a service for the labels that go with the value of a label, and keeps
the answers in a cache that is bounded by an age and by a capacity.

* **Time.**  An `Instant` and a `Duration` are numbers of nanoseconds.
* **Failure.**  `with_capacity` panics beyond a largest capacity, and `Instant + Duration`
  beyond a largest instant.  What these are is up to the libraries (`Libraries`); a panic is
  modelled by `none`.  The client is always built: nothing in the configuration can keep
  `reqwest` from it.

`HttpEnricher.enrich_spec` says that the enricher with its cache does to the labels what
`enrichHttp` does for the outcome of the call. -/

namespace PurpleWolf.Relay

/-! ### What the libraries can take -/

/-- The limits beyond which the libraries of the relay panic.  The sizes that the relay fixes
itself are within them. -/
structure Libraries where
  target : Target
  /-- The capacity of a `HashMap<String, CacheEntry>`. -/
  hashMapCapacity : ℕ
  /-- The capacity of a `VecDeque<String>`. -/
  lruCapacity : ℕ
  /-- The capacity of a `VecDeque<Envelope>`. -/
  dlqCapacity : ℕ
  lastInstant : ℕ
  dlq_fits : 1000 ≤ dlqCapacity
  source_channel_fits : SOURCE_CHANNEL_CAP ≤ target.usizeMax >>> 3

namespace Libraries

/-- `HashMap::with_capacity`, `VecDeque::with_capacity`. -/
def withCapacity (limit capacity : ℕ) : Option Unit := if capacity ≤ limit then some () else none

variable (lib : Libraries)

/-- `tokio::sync::mpsc::channel`: the capacity must be positive and at most
`Semaphore::MAX_PERMITS`. -/
def channel (capacity : ℕ) : Option Unit :=
  if capacity = 0 ∨ lib.target.usizeMax >>> 3 < capacity then none else some ()

/-- `Instant + Duration`. -/
def addInstant (now duration : ℕ) : Option ℕ :=
  if now + duration ≤ lib.lastInstant then some (now + duration) else none

end Libraries

/-! ### The cache -/

structure CacheEntry where
  labels : Labels
  expiresAt : ℕ

structure Cache where
  entries : AList (fun _ : Str => CacheEntry)
  /-- The keys, least recently used first. -/
  lru : List Str
  capacity : ℕ

def removeLruKey (lru : List Str) (value : Str) : List Str := lru.erase value

namespace Cache

def new (lib : Libraries) (capacity : ℕ) : Option Cache :=
  (Libraries.withCapacity lib.hashMapCapacity capacity).bind fun _ =>
    (Libraries.withCapacity lib.lruCapacity capacity).map fun _ => ⟨∅, [], capacity⟩

def touch (c : Cache) (value : Str) : Cache := { c with lru := removeLruKey c.lru value ++ [value] }

/-- Drop an entry that has expired. -/
def remove (c : Cache) (value : Str) : Cache :=
  { c with entries := c.entries.erase value, lru := removeLruKey c.lru value }

def get (c : Cache) (value : Str) (now : ℕ) : Option Labels × Cache :=
  match c.entries.lookup value with
  | none => (none, c)
  | some entry => if now ≥ entry.expiresAt then (none, c.remove value) else (some entry.labels, c.touch value)

def evictExpired (c : Cache) (now : ℕ) : Cache :=
  let expired := (c.entries.entries.filter (fun e => now ≥ e.2.expiresAt)).map (fun e => e.1)
  expired.foldl remove c

/-- The loop that pops the least recently used keys as long as the cache is full. -/
def makeRoom (capacity : ℕ) : AList (fun _ : Str => CacheEntry) → List Str →
    AList (fun _ : Str => CacheEntry) × List Str
  | entries, [] => (entries, [])
  | entries, oldest :: lru =>
      if entries.keys.length ≥ capacity then makeRoom capacity (entries.erase oldest) lru
      else (entries, oldest :: lru)

/-- `Cache::put`, `now` being what the clock reads in it. -/
def put (c : Cache) (value : Str) (labels : Labels) (expiresAt now : ℕ) : Cache :=
  if c.capacity = 0 then c
  else
    let c := c.evictExpired now
    if (c.entries.lookup value).isSome then
      { c with entries := c.entries.insert value ⟨labels, expiresAt⟩ }.touch value
    else
      let (entries, lru) := makeRoom c.capacity c.entries c.lru
      { c with entries := entries.insert value ⟨labels, expiresAt⟩, lru := lru ++ [value] }

theorem new_isSome_iff (lib : Libraries) (capacity : ℕ) :
    (new lib capacity).isSome ↔ capacity ≤ lib.hashMapCapacity ∧ capacity ≤ lib.lruCapacity := by
  unfold new Libraries.withCapacity
  by_cases hmap : capacity ≤ lib.hashMapCapacity
  · by_cases hlru : capacity ≤ lib.lruCapacity <;> simp [hmap, hlru]
  · simp [hmap]

end Cache

/-! ### The enricher -/

structure HttpEnricher where
  onLabel : Str
  urlTemplate : Str
  timeout : ℕ
  cacheTtl : ℕ
  cache : Cache

namespace HttpEnricher

variable (lib : Libraries)

def new (onLabel urlTemplate : Str) (timeout cacheTtl cacheCapacity : ℕ) : Option HttpEnricher :=
  (Cache.new lib cacheCapacity).map fun cache => { onLabel, urlTemplate, timeout, cacheTtl, cache }

def cacheGet (e : HttpEnricher) (value : Str) (now : ℕ) : Option Labels × HttpEnricher :=
  let (cached, cache) := e.cache.get value now
  (cached, { e with cache })

/-- The readings of the clock in `cache_put`: for the expiry, and inside `Cache::put`. -/
structure PutTimes where
  now : ℕ
  later : ℕ

def cachePut (e : HttpEnricher) (value : Str) (labels : Labels) (t : PutTimes) : Option HttpEnricher :=
  (lib.addInstant t.now e.cacheTtl).map fun expiresAt =>
    { e with cache := e.cache.put value labels expiresAt t.later }

/-- `enrich` keeps an answer only if entries may live at all. -/
def keep (e : HttpEnricher) (value : Str) (extra : Labels) (t : PutTimes) : Option HttpEnricher :=
  if e.cacheTtl ≠ 0 then e.cachePut lib value extra t else some e

/-- `HttpEnricher::enrich`; `answer` are the labels that are found at a URL, if they come in
time. -/
def enrich (E : PercentEncoder) (e : HttpEnricher) (labels : Labels) (answer : Str → Option Labels) (now : ℕ)
    (t : PutTimes) : Option (HttpEnricher × Labels) :=
  match labels.lookup e.onLabel with
  | none => some (e, labels)
  | some value =>
      let (cached, e) := if e.cacheTtl ≠ 0 then e.cacheGet value now else (none, e)
      match cached with
      | some extra => some (e, mergeInPlace labels extra)
      | none =>
          match answer (buildEnrichUrl E e.urlTemplate value) with
          | none => some (e, labels)
          | some extra => (e.keep lib value extra t).map fun e => (e, mergeInPlace labels extra)

/-- The labels that are in the cache for a value and have not expired. -/
def live (e : HttpEnricher) (value : Str) (now : ℕ) : Option Labels :=
  if e.cacheTtl = 0 then none
  else ((e.cache.entries.lookup value).filter fun entry => now < entry.expiresAt).map CacheEntry.labels

/-- What comes of a call for a value. -/
def outcome (E : PercentEncoder) (e : HttpEnricher) (answer : Str → Option Labels) (value : Str) (now : ℕ) :
    HttpOutcome :=
  match e.live value now, answer (buildEnrichUrl E e.urlTemplate value) with
  | some extra, _ => .cached extra
  | none, some extra => .response extra
  | none, none => .failed

theorem cacheGet_live (e : HttpEnricher) (value : Str) (now : ℕ) :
    (if e.cacheTtl ≠ 0 then e.cacheGet value now else (none, e)).1 = e.live value now := by
  unfold live cacheGet Cache.get
  by_cases httl : e.cacheTtl = 0
  · rw [if_neg (not_not_intro httl), if_pos httl]
  · rw [if_pos httl, if_neg httl]
    cases hentry : e.cache.entries.lookup value with
    | none => rfl
    | some entry =>
        by_cases hexpired : now ≥ entry.expiresAt
        · simp [hexpired]
        · simp [hexpired, not_le.mp hexpired]

theorem cacheGet_settings (e : HttpEnricher) (value : Str) (now : ℕ) :
    (if e.cacheTtl ≠ 0 then e.cacheGet value now else (none, e)).2.urlTemplate = e.urlTemplate := by
  split_ifs <;> rfl

/-- **A call enriches the labels** with what the cache holds for the value, or else with what the
service answers; no label that is set is changed. -/
theorem enrich_spec {E : PercentEncoder} {e e' : HttpEnricher} {labels labels' : Labels}
    {answer : Str → Option Labels} {now : ℕ} {t : PutTimes}
    (h : e.enrich lib E labels answer now t = some (e', labels')) :
    (∃ outcome, labels' = enrichHttp e.onLabel outcome labels ∧
      ∀ value, labels.lookup e.onLabel = some value → outcome = e.outcome E answer value now) ∧
      ∀ k v, labels.lookup k = some v → labels'.lookup k = some v := by
  have houtcome : ∃ outcome, labels' = enrichHttp e.onLabel outcome labels ∧
      ∀ value, labels.lookup e.onLabel = some value → outcome = e.outcome E answer value now := by
    unfold enrich at h
    unfold enrichHttp outcome
    cases hvalue : labels.lookup e.onLabel with
    | none =>
        rw [hvalue] at h
        cases h
        exact ⟨.failed, rfl, fun value hsome => by cases hsome⟩
    | some value =>
        have hlive := cacheGet_live e value now
        have hsettings := cacheGet_settings e value now
        simp only [hvalue] at h ⊢
        generalize (if e.cacheTtl ≠ 0 then e.cacheGet value now else (none, e)) = found at h hlive hsettings
        obtain ⟨cached, e₁⟩ := found
        have hlive : cached = e.live value now := hlive
        have hsettings : e₁.urlTemplate = e.urlTemplate := hsettings
        cases cached with
        | some extra =>
            cases h
            refine ⟨.cached extra, rfl, ?_⟩
            rintro _ ⟨⟩
            rw [← hlive]
        | none =>
            simp only at h
            rw [hsettings] at h
            cases hanswer : answer (buildEnrichUrl E e.urlTemplate value) with
            | none =>
                simp only [hanswer] at h
                cases h
                refine ⟨.failed, rfl, ?_⟩
                rintro _ ⟨⟩
                rw [← hlive, hanswer]
            | some extra =>
                simp only [hanswer] at h
                obtain ⟨e₂, -, heq⟩ := Option.map_eq_some_iff.mp h
                cases heq
                refine ⟨.response extra, rfl, ?_⟩
                rintro _ ⟨⟩
                rw [← hlive, hanswer]
  refine ⟨houtcome, ?_⟩
  intro k v hk
  obtain ⟨outcome, rfl, -⟩ := houtcome
  rw [lookup_enrichHttp _ _ hk]

/-- The labels of `acme` are in the cache; the service, which has others by now, is not asked. -/
theorem enrich_spec_cached :
    let lib : Libraries := ⟨.native64, 2 ^ 53, 2 ^ 53, 2 ^ 53, 2 ^ 63, by decide, by decide⟩
    let tier (s : Str) : Labels := (∅ : Labels).insert "tier".toList s
    let e : HttpEnricher := ⟨"tenant".toList, "http://cmdb/{value}".toList, 10 ^ 9, 10 ^ 9,
      ⟨(∅ : AList fun _ : Str => CacheEntry).insert "acme".toList ⟨tier "gold".toList, 100⟩, ["acme".toList], 4⟩⟩
    let labels : Labels := (∅ : Labels).insert "tenant".toList "acme".toList
    ∃ e' labels', e.enrich lib .standard labels (fun _ => some (tier "lead".toList)) 50 ⟨50, 50⟩ = some (e', labels') ∧
      labels'.lookup "tenant".toList = some "acme".toList ∧ labels'.lookup "tier".toList = some "gold".toList := by
  intro lib tier e labels
  obtain ⟨e', labels', h⟩ : ∃ e' labels',
      e.enrich lib .standard labels (fun _ => some (tier "lead".toList)) 50 ⟨50, 50⟩ = some (e', labels') := ⟨_, _, rfl⟩
  obtain ⟨⟨outcome, hlabels, houtcome⟩, hkept⟩ := enrich_spec lib h
  refine ⟨e', labels', h, hkept _ _ rfl, ?_⟩
  rw [hlabels, houtcome "acme".toList rfl]
  rfl

theorem new_isSome_iff (onLabel urlTemplate : Str) (timeout cacheTtl cacheCapacity : ℕ) :
    (new lib onLabel urlTemplate timeout cacheTtl cacheCapacity).isSome ↔
      cacheCapacity ≤ lib.hashMapCapacity ∧ cacheCapacity ≤ lib.lruCapacity := by
  unfold new
  rw [Option.isSome_map, Cache.new_isSome_iff]

theorem keep_isSome_iff (e : HttpEnricher) (value : Str) (extra : Labels) (t : PutTimes) :
    (e.keep lib value extra t).isSome ↔ (e.cacheTtl ≠ 0 → t.now + e.cacheTtl ≤ lib.lastInstant) := by
  unfold keep cachePut Libraries.addInstant
  split_ifs with httl hfits
  · exact iff_of_true rfl (fun _ => hfits)
  · exact iff_of_false (by simp) (fun h => hfits (h httl))
  · exact iff_of_true rfl (fun h => absurd h httl)

theorem cacheTtl_keep {e e' : HttpEnricher} {value : Str} {extra : Labels} {t : PutTimes}
    (h : e.keep lib value extra t = some e') : e'.cacheTtl = e.cacheTtl := by
  unfold keep at h
  split_ifs at h
  · obtain ⟨expiresAt, -, rfl⟩ := Option.map_eq_some_iff.mp h
    rfl
  · cases h
    rfl

end HttpEnricher

end PurpleWolf.Relay
