import PurpleWolf.Core.FieldOrder
import PurpleWolf.Lib.JsonParser
import PurpleWolf.Libinjection.XssDetection
import PurpleWolf.Traefik.Engine

/-! # Script tags in requests

The plugin with the XSS detector of libinjection put in: what the detector reports in a field,
an enforcing plugin blocks.  `isSqli` is still any function. -/

namespace PurpleWolf.Traefik

open Html5 Xss Signatures

/-- The two calls of `ffi.rs`, on a target where `char` is signed or not. -/
def ffi (isSqli : Bytes → Bool) (signedChar : Bool) : Libinjection := ⟨isSqli, isXss signedChar⟩

section Verdicts

variable {Env : Type}

/-- Every detector that runs has its say. -/
theorem mem_inspect_of_running {engine : Engine Env} {req : Request} {enabled : List Group} {d : Detector Env}
    {v : Verdict} (hd : d ∈ engine.running enabled) (hv : ∀ env, v ∈ (d.inspect req env).1) (env : Env) :
    v ∈ (engine.inspect req enabled env).1 := by
  have hrun : ∀ (ds : List (Detector Env)) (env : Env), d ∈ ds →
      v ∈ (Engine.reports req ds env).1.flatMap Prod.snd := by
    intro ds
    induction ds with
    | nil => exact fun _ hmem => absurd hmem List.not_mem_nil
    | cons d' ds ih =>
        intro env hmem
        simp only [Engine.reports, List.flatMap_cons, List.mem_append]
        rcases List.mem_cons.mp hmem with rfl | hmem
        · exact Or.inl (hv env)
        · exact Or.inr (ih _ hmem)
  exact hrun _ env hd

theorem judge_block {S : Json.Codec} {state : PluginState Env} {req : Request} {env : Env} {v : Verdict}
    (hmode : state.cfg.mode = .enforce) (hgroup : effectiveGroupMode state.cfg v.group = .enforce)
    (hv : v ∈ (state.engine.inspect req (enabledGroups state.cfg) env).1) : (judge S state req env).1 = .block := by
  have hresolves := Policy.decide_resolves state.cfg.mode (effectiveGroupMode state.cfg)
    (state.engine.inspect req (enabledGroups state.cfg) env).1
  rw [(judge_decision S state req env).1]
  refine hresolves.block_iff.mpr ⟨hmode, v, ?_, hgroup⟩
  exact List.mem_filter.mpr ⟨hv, by simp [hgroup]⟩

end Verdicts

variable {T : Target} (P : PercentDecoder) (S : Json.Codec) (A : AhoCorasick patterns)
  (isSqli : Bytes → Bool) (signedChar : Bool)

/-- What `inspect` decides on a request whose body has been read: a body over the cap apart, what
`judge` says. -/
theorem inspect_of_judge_block {state : PluginState (Reputation.Env T)} {host : Host} {env : Reputation.Env T}
    {drained : Drained} {body : BodyRead}
    (hread : host.readRequestBody state.cfg.body.maxInspectBytes (state.cfg.body.overCap == .pass) = some drained)
    (hok : drained.result = .ok body)
    (hjudge : (judge S state (buildRequest P state.cfg host body) env).1 = .block) :
    ∃ out, inspect P S state host env = some out ∧ out.action = .block := by
  unfold inspect
  simp only [hread, Option.map_some, hok, Option.some.injEq, exists_eq_left']
  split_ifs
  · rfl
  · exact hjudge

/-- The fields of a request as the host delivers it. -/
def hostFields (host : Host) (body : BodyRead) : List Bytes :=
  fieldsOf P (pathAndQuery host).1 (pathAndQuery host).2 (requestHeaders host) body.bytes (!body.bytes.isEmpty)

theorem scannedFields_buildRequest (cfg : Config) (host : Host) (body : BodyRead) :
    Injection.scannedFields (buildRequest P cfg host body) = hostFields P host body := by
  unfold hostFields Injection.scannedFields buildRequest
  simp only
  rw [← inspectableFields_build P host.getMethod
    (((requestHeaders host).find? (fun h => h.1 == "host".toList)).map Prod.snd |>.getD [])
    _ _ _ _ _ (clientIp (requestHeaders host) (parsePeer host.getSourceAddr) cfg.xff.trustedHops),
    Request.inspectableFields_eq, Request.inspectableFields_eq]
  rfl

/-- What libinjection reports in a field, an enforcing plugin blocks. -/
theorem inspect_blocks_of_reported (L : Libinjection) {cfg : Config} (fallback : Bool) {host : Host}
    (env : Reputation.Env T) {drained : Drained} {body : BodyRead} (hmode : cfg.mode = .enforce)
    (hgroup : effectiveGroupMode cfg .injection = .enforce)
    (hread : host.readRequestBody cfg.body.maxInspectBytes (cfg.body.overCap == .pass) = some drained)
    (hok : drained.result = .ok body) {field : Bytes} (hfield : field ∈ hostFields P host body) {v : Verdict}
    (hv : v ∈ Injection.inspectField L field) :
    ∃ out, inspect P S (pluginState T L A cfg fallback) host env = some out ∧ out.action = .block := by
  apply inspect_of_judge_block P S hread hok
  have henabled : Group.injection ∈ enabledGroups cfg := by
    unfold enabledGroups
    exact List.mem_filter.mpr ⟨by decide, by rw [hgroup]; rfl⟩
  have hmem : ∀ req, Injection.scannedFields req = hostFields P host body → v ∈ Injection.inspect L req :=
    fun req hreq =>
    List.mem_append_left _ (List.mem_flatMap.mpr ⟨field, hreq ▸ hfield, hv⟩)
  have hinspect := hmem _ (scannedFields_buildRequest P cfg host body)
  apply judge_block (v := v) hmode (by rw [Injection.group_of_mem hinspect]; exact hgroup)
  refine mem_inspect_of_running (d := Injection.detector L) ?_ (fun _ => hinspect) env
  exact List.mem_filter.mpr ⟨List.mem_map.mpr ⟨.injection, henabled, rfl⟩, List.contains_iff_mem.mpr henabled⟩

/-- **A script tag is blocked.**  An enforcing plugin blocks every request with a banned tag behind
text without `<` in its path, in a value of its query, in its body or in an inspected header. -/
theorem inspect_blocks_black_tag {cfg : Config} (fallback : Bool) {host : Host} (env : Reputation.Env T)
    {drained : Drained} {body : BodyRead} (hmode : cfg.mode = .enforce)
    (hgroup : effectiveGroupMode cfg .injection = .enforce)
    (hread : host.readRequestBody cfg.body.maxInspectBytes (cfg.body.overCap == .pass) = some drained)
    (hok : drained.result = .ok body) {p name rest : Bytes} (hp : CHAR_LT ∉ p) (hblack : fold name ∈ BLACKTAG)
    (hrest : EndsName H5.endsTagName rest) (hfield : p ++ CHAR_LT :: (name ++ rest) ∈ hostFields P host body) :
    ∃ out, inspect P S (pluginState T (ffi isSqli signedChar) A cfg fallback) host env = some out ∧
    out.action = .block := by
  have hxss : isXss signedChar (p ++ CHAR_LT :: (name ++ rest)) = true := isXss_of_black_tag signedChar hp hblack hrest
  refine inspect_blocks_of_reported P S A (ffi isSqli signedChar) fallback env hmode hgroup hread hok hfield
    (v := Injection.xss (p ++ CHAR_LT :: (name ++ rest))) (List.mem_append_right _ ?_)
  rw [if_pos (show (ffi isSqli signedChar).isXss _ = true from hxss)]
  exact List.mem_singleton_self _

/-- A host that delivers the text as the body, and nothing else. -/
def hostOf (text : Bytes) : Host where
  method _ := (Vector.replicate _ 0, 0)
  uri _ := (Vector.replicate _ 0, 0)
  sourceAddr _ := (Vector.replicate _ 0, 0)
  headerNames _ := (Vector.replicate _ 0, 0)
  headerValues _ _ := (Vector.replicate _ 0, 0)
  features := 1
  body := [(Vector.ofFn fun i => text.getD i 0, 0x100000000 + BitVec.ofNat 64 text.length)]

theorem bytes_hostOf {text : Bytes} (hlen : text.length ≤ SCRATCH)
    (hpacked : splitEof (0x100000000 + BitVec.ofNat 64 text.length) = (true, text.length)) {drained : Drained}
    {body : BodyRead} (hread : (hostOf text).readRequestBody 1048576 true = some drained)
    (hok : drained.result = .ok body) :
    body.bytes = text := by
  have hbuffer : (Vector.ofFn fun i : Fin SCRATCH => text.getD i 0).toList.take text.length = text := by
    refine List.ext_getElem (by simpa using hlen) fun i h1 h2 => ?_
    simp [List.getElem?_eq_getElem h2]
  have hdelivered : deliveredBody (hostOf text).bodyAnswers = text := by
    unfold Host.bodyAnswers hostOf
    simp only [List.map_cons, List.map_nil, hpacked, deliveredBody]
    rw [if_pos trivial, List.append_nil]
    exact hbuffer
  have hall : text.length ≤ min 1048576 MAX_ALLOC := by
    apply hlen.trans
    unfold SCRATCH MAX_ALLOC
    omega
  rw [(readRequestBody_bytes hread hok).1, hdelivered, List.take_of_length_le hall]

/-- The default configuration, enforcing. -/
def enforcing : Config where
  mode := .enforce
  failMode := .failOpen
  body := ⟨1048576, .pass⟩
  groups := { Groups.allMonitor with injection := some ⟨true, .enforce⟩ }
  reputation := ReputationConfig.default
  xff := ⟨0⟩
  labels := ∅

theorem inspect_blocks_script : ∃ out,
    inspect PercentDecoder.standard Json.standard
      (pluginState Target.wasm32 (ffi (fun _ => false) true) (AhoCorasick.standard patterns patterns_ne_nil)
      enforcing false)
      (hostOf (ascii "x<script>")) ⟨Reputation.Limiter.new 1 ⟨1, Target.wasm32.one_le⟩, 0⟩ = some out ∧
        out.action = .block := by
  obtain ⟨drained, body, hread, hok⟩ : ∃ drained body,
      (hostOf (ascii "x<script>")).readRequestBody 1048576 true = some drained ∧ drained.result = .ok body :=
    ⟨_, _, rfl, rfl⟩
  refine inspect_blocks_black_tag PercentDecoder.standard Json.standard _ (fun _ => false)
    true false _ rfl rfl hread hok
    (by decide : CHAR_LT ∉ ascii "x") (by decide : Xss.fold (ascii "script") ∈ BLACKTAG)
    (by rintro c hc; cases hc; decide : Xss.EndsName Html5.H5.endsTagName (ascii ">")) ?_
  unfold hostFields fieldsOf
  rw [bytes_hostOf (by decide) rfl hread hok]
  refine List.mem_append_right _ (List.mem_append_left _ ?_)
  decide

end PurpleWolf.Traefik
