import PurpleWolf.Relay.Parser

/-! # From log line to envelope (`pipeline.rs`, `enrichers/`, `envelope.rs`)

`processOne` turns one raw line into the envelope that is fanned out: it parses the line,
promotes the operator's labels to the envelope and lets the enrichers add labels.

* **Enrichers.**  An HTTP enricher calls a service; what comes of the call is an input of
  the model (`HttpOutcome`).
* **Identifiers and time.**  The ULID and the clock reading of a new envelope are inputs.
* **Metrics and logs** are left out. -/

namespace PurpleWolf.Relay

/-! ### Labels -/

/-- Insert-only merge: keys that are present keep their value. -/
def mergeInPlace (labels extra : Labels) : Labels :=
  extra.entries.foldl (fun labels e => if e.1 ∈ labels then labels else labels.insert e.1 e.2) labels

/-- The entries of a JSON object that are texts. -/
def collectStrings : List (Str × Json) → Labels → Labels
  | [], out => out
  | (k, .str s) :: map, out => collectStrings map (out.insert k s)
  | _ :: map, out => collectStrings map out

/-- Pull `labels` out of the parsed event. -/
def takeLabels (event : Json) : Json × Labels :=
  (event.erase "labels".toList,
    match event.get "labels".toList with
    | some (.obj map) => collectStrings map ∅
    | _ => ∅)

/-! ### Enrichers -/

/-- What comes of a call of the HTTP enricher. -/
inductive HttpOutcome where
  | cached (extra : Labels)
  | response (extra : Labels)
  /-- A failed request, a status other than 2xx, an unreadable body. -/
  | failed
  /-- One of the timeouts fired. -/
  | timeout

/-- `LookupEnricher::enrich`. -/
def enrichLookup (onLabel : Str) (table : Str → Option Labels) (labels : Labels) : Labels :=
  match (labels.lookup onLabel).bind table with
  | some extra => mergeInPlace labels extra
  | none => labels

/-- `HttpEnricher::enrich`. -/
def enrichHttp (onLabel : Str) (outcome : HttpOutcome) (labels : Labels) : Labels :=
  match labels.lookup onLabel, outcome with
  | some _, .cached extra => mergeInPlace labels extra
  | some _, .response extra => mergeInPlace labels extra
  | _, _ => labels

inductive Enricher where
  | lookup (onLabel : Str) (table : Str → Option Labels)
  | http (onLabel : Str)

def Enricher.enrich (outcome : HttpOutcome) (labels : Labels) : Enricher → Labels
  | .lookup onLabel table => enrichLookup onLabel table labels
  | .http onLabel => enrichHttp onLabel outcome labels

/-- The enrichers in order, each with the outcome of its call. -/
def enrichAll (chain : List (Enricher × HttpOutcome)) (labels : Labels) : Labels :=
  chain.foldl (fun labels (enricher, outcome) => enricher.enrich outcome labels) labels

/-! ### Envelopes -/

def SCHEMA_V1 : Str := "purple-wolf.audit/v1".toList

structure EnvelopeSource where
  middleware : Option Str
  router : Option Str
  entryPoint : Option Str
  relayInstance : Str

structure Envelope where
  schema : Str
  eventId : Str
  deliveryId : Str
  deliveredAt : ℕ
  attempt : ℕ
  labels : Labels
  source : EnvelopeSource
  event : Json

def Envelope.new (id : Str) (now : ℕ) (event : Json) (source : EnvelopeSource) (labels : Labels) : Envelope where
  schema := SCHEMA_V1
  eventId := id
  deliveryId := id
  deliveredAt := now
  attempt := 1
  labels := labels
  source := source
  event := event

/-- The envelope `process_one` builds from a raw line, if any. -/
def processOne (S : Json.Codec) (chain : List (Enricher × HttpOutcome)) (instanceId id : Str) (now : ℕ)
    (line : Bytes) : Option Envelope :=
  match parseLine S line with
  | .error _ => none
  | .ok parsed =>
      let (event, labels) := takeLabels parsed.event
      let labels := enrichAll chain labels
      some (Envelope.new id now event
        { middleware := parsed.middleware
          router := parsed.router
          entryPoint := parsed.entryPoint
          relayInstance := instanceId } labels)

/-! ### What enrichers keep -/

theorem lookup_mergeInPlace {labels : Labels} {k v : Str} (extra : Labels) (h : labels.lookup k = some v) :
    (mergeInPlace labels extra).lookup k = some v := by
  unfold mergeInPlace
  induction extra.entries generalizing labels with
  | nil => exact h
  | cons e entries ih =>
      rw [List.foldl_cons]
      apply ih
      split_ifs with hin
      · exact h
      · have hne : k ≠ e.1 := by
          rintro rfl
          exact hin (AList.lookup_isSome.mp (by simp [h]))
        rw [AList.lookup_insert_ne hne, h]

theorem lookup_enrichLookup {labels : Labels} {k v : Str} (onLabel : Str) (table : Str → Option Labels)
    (h : labels.lookup k = some v) : (enrichLookup onLabel table labels).lookup k = some v := by
  unfold enrichLookup
  cases (labels.lookup onLabel).bind table with
  | none => exact h
  | some extra => exact lookup_mergeInPlace extra h

theorem lookup_enrichHttp {labels : Labels} {k v : Str} (onLabel : Str) (outcome : HttpOutcome)
    (h : labels.lookup k = some v) : (enrichHttp onLabel outcome labels).lookup k = some v := by
  unfold enrichHttp
  cases labels.lookup onLabel with
  | none => exact h
  | some value =>
      cases outcome with
      | cached extra => exact lookup_mergeInPlace extra h
      | response extra => exact lookup_mergeInPlace extra h
      | failed => exact h
      | timeout => exact h

theorem lookup_enrich {labels : Labels} {k v : Str} (enricher : Enricher) (outcome : HttpOutcome)
    (h : labels.lookup k = some v) : (enricher.enrich outcome labels).lookup k = some v := by
  cases enricher with
  | lookup onLabel table => exact lookup_enrichLookup onLabel table h
  | http onLabel => exact lookup_enrichHttp onLabel outcome h

/-- No chain of enrichers, with any outcomes, changes a label that is set. -/
theorem lookup_enrichAll {k v : Str} : ∀ (chain : List (Enricher × HttpOutcome)) {labels : Labels},
    labels.lookup k = some v → (enrichAll chain labels).lookup k = some v
  | [], _, h => h
  | (enricher, outcome) :: chain, _, h => lookup_enrichAll chain (lookup_enrich enricher outcome h)

end PurpleWolf.Relay
