import PurpleWolf.Libinjection.SqliTautology
import PurpleWolf.Traefik.ScriptTags

/-! # Payloads and prose in requests

The plugin with both detectors of libinjection put in.  A tautology in a field is blocked, and a
request of prose is not. -/

namespace PurpleWolf.Traefik

open Html5 Xss Sqli Signatures

/-- libinjection with a table of keywords, on a target where `char` is signed or not. -/
def libinjection (signedChar : Bool) (K : KeywordTable) : Libinjection := ffi (Sqli.isSqli signedChar K) signedChar

variable {T : Target} (P : PercentDecoder) (S : Json.Codec) (A : AhoCorasick patterns) (signedChar : Bool)
  (K : KeywordTable)

/-- **A tautology is blocked.**  An enforcing plugin blocks every request in which a field closes a
string, compares two numbers behind `OR` or `AND`, and starts a comment. -/
theorem inspect_blocks_tautology {cfg : Config} (fallback : Bool) {host : Host} (env : Reputation.Env T)
    {drained : Drained} {body : BodyRead} (hmode : cfg.mode = .enforce)
    (hgroup : effectiveGroupMode cfg .injection = .enforce)
    (hread : host.readRequestBody cfg.body.maxInspectBytes (cfg.body.overCap == .pass) = some drained)
    (hok : drained.result = .ok body) (hfingerprint : (ascii "0S&1C", .fingerprint) ∈ K.entries)
    (hequals : ∀ e ∈ K.entries, e.1.head? ≠ some CHAR_EQUALS) (x : TautologyText K)
    (hfield : x.text ∈ hostFields P host body) :
    ∃ out, inspect P S (pluginState T (libinjection signedChar K) A cfg fallback) host env = some out ∧
      out.action = .block := by
  have hsqli : (libinjection signedChar K).isSqli x.text = true :=
    isSqli_of_tautology signedChar K hfingerprint hequals x
  refine inspect_blocks_of_reported P S A (libinjection signedChar K) fallback env hmode hgroup hread hok hfield
    (v := Injection.sqli "SQLi in field: ".toList x.text) (List.mem_append_left _ ?_)
  rw [if_pos hsqli]
  exact List.mem_singleton_self _

theorem inspect_blocks_admin : ∃ out,
    inspect PercentDecoder.standard Json.standard
      (pluginState Target.wasm32 (libinjection true KeywordTable.excerpt)
      (AhoCorasick.standard patterns patterns_ne_nil)
        enforcing false)
      (hostOf (ascii "admin' or\t1=1 -- ")) ⟨Reputation.Limiter.new 1 ⟨1, Target.wasm32.one_le⟩, 0⟩ = some out ∧
        out.action = .block := by
  obtain ⟨drained, body, hread, hok⟩ : ∃ drained body,
      (hostOf (ascii "admin' or\t1=1 -- ")).readRequestBody 1048576 true = some drained ∧ drained.result = .ok body :=
    ⟨_, _, rfl, rfl⟩
  refine inspect_blocks_tautology PercentDecoder.standard Json.standard _ true
    KeywordTable.excerpt false _ rfl rfl hread hok
    (by decide) (by decide) adminText ?_
  unfold hostFields fieldsOf
  rw [bytes_hostOf (by decide) rfl hread hok]
  refine List.mem_append_right _ (List.mem_append_left _ ?_)
  decide

/-! ### Prose -/

/-- What is prose has no `<` and no `=` either. -/
theorem isXss_of_prose {s : Bytes} (h : Prose K s) : isXss signedChar s = false := by
  have hbyte := h.no_markup
  rw [← Bool.not_eq_true, isXss_iff]
  rintro ⟨flags, hr⟩
  exact not_isXssIn_of_plain signedChar (fun hlt => (hbyte _ hlt).1 rfl) (fun heq => (hbyte _ heq).2 rfl) flags hr

theorem injection_of_prose (htable : ∀ e ∈ K.entries, e.2 = .fingerprint → ∃ b ∈ e.1.tail, b ≠ chr 'N' ∧ b ≠ chr '1')
    {req : Request} (hfields : ∀ field ∈ Injection.scannedFields req, Prose K field)
    (htails : ∀ ua ∈ req.userAgent, ∀ c ∈ (Injection.uaSuffixCandidates ua).1.toList ++
      (Injection.uaSuffixCandidates ua).2.toList, Prose K (Utf8.encode c)) :
    Injection.inspect (libinjection signedChar K) req = [] := by
  have hsqli : ∀ s, Prose K s → (libinjection signedChar K).isSqli s = false := fun s hs =>
    isSqli_of_prose signedChar K htable hs
  have hnone : (Injection.scannedFields req).flatMap (Injection.inspectField (libinjection signedChar K)) = [] := by
    refine List.flatMap_eq_nil_iff.mpr fun field hfield => ?_
    have hxss : (libinjection signedChar K).isXss field = false := isXss_of_prose signedChar K (hfields field hfield)
    unfold Injection.inspectField
    rw [hsqli field (hfields field hfield), hxss]
    rfl
  have hprobe : Injection.probeUserAgent (libinjection signedChar K) req = [] := by
    unfold Injection.probeUserAgent
    cases hua : req.userAgent with
    | none => rfl
    | some ua =>
        have hfind : ((Injection.uaSuffixCandidates ua).1.toList ++ (Injection.uaSuffixCandidates ua).2.toList).find?
            (fun c => (libinjection signedChar K).isSqli (Utf8.encode c)) = none := by
          refine List.find?_eq_none.mpr fun c hc => ?_
          rw [hsqli _ (htails ua hua c hc)]
          decide
        dsimp only
        rw [hfind]
  unfold Injection.inspect
  dsimp only
  rw [hnone, hprobe, ite_self]
  rfl

theorem judge_allow {Env : Type} {state : PluginState Env} {req : Request} {env : Env}
    (hfallback : state.fallback = false)
    (hverdicts : (state.engine.inspect req (enabledGroups state.cfg) env).1 = []) :
    ∃ env', judge S state req env = (.allow, none, [], env') := by
  have hquiet : decisionIsNoteworthy ⟨.allow, none, []⟩ state.fallback = false := by
    rw [hfallback]
    rfl
  unfold judge
  generalize state.engine.inspect req (enabledGroups state.cfg) env = r at hverdicts
  obtain ⟨verdicts, env'⟩ := r
  obtain rfl : verdicts = [] := hverdicts
  have hdecide : Policy.decide [] state.cfg.mode (effectiveGroupMode state.cfg) = ⟨.allow, none, []⟩ := rfl
  simp only [hdecide, hquiet]
  exact ⟨env', rfl⟩

/-- **Prose passes.**  Where only the injection detector runs, a request whose fields are text of plain
words and numbers is let through, without a response and without a log line. -/
theorem inspect_passes_prose (cfg : Config) {host : Host} (env : Reputation.Env T) {drained : Drained} {body : BodyRead}
    (hgroups : enabledGroups cfg = [.injection])
    (hread : host.readRequestBody cfg.body.maxInspectBytes (cfg.body.overCap == .pass) = some drained)
    (hok : drained.result = .ok body) (hcap : body.exceeded = false ∨ cfg.body.overCap = .pass)
    (htable : ∀ e ∈ K.entries, e.2 = .fingerprint → ∃ b ∈ e.1.tail, b ≠ chr 'N' ∧ b ≠ chr '1')
    (hfields : ∀ field ∈ hostFields P host body, Prose K field)
    (htails : ∀ ua ∈ (buildRequest P cfg host body).userAgent, ∀ c ∈ (Injection.uaSuffixCandidates ua).1.toList ++
      (Injection.uaSuffixCandidates ua).2.toList, Prose K (Utf8.encode c)) :
    ∃ out, inspect P S (pluginState T (libinjection signedChar K) A cfg false) host env = some out ∧
      out.action = .allow ∧ out.response = none ∧ out.logs = [] ∧ out.preserved = drained.preserved := by
  have hnone : Injection.inspect (libinjection signedChar K) (buildRequest P cfg host body) = [] := by
    refine injection_of_prose signedChar K htable ?_ htails
    rw [scannedFields_buildRequest]
    exact hfields
  have hverdicts :
      ((pluginState T (libinjection signedChar K) A cfg false).engine.inspect (buildRequest P cfg host body)
      (enabledGroups cfg) env).1 = [] := by
    unfold pluginState engine
    rw [hgroups]
    show (Injection.inspect (libinjection signedChar K) (buildRequest P cfg host body) ++ []) = []
    rw [hnone]
    rfl
  have hnotBlocked : (body.exceeded && cfg.body.overCap == .block) = false := by
    rcases hcap with h | h
    · rw [h]
      rfl
    · rw [h, Bool.and_eq_false_iff]
      exact Or.inr rfl
  have hallow : ∃ env',
      judge S (pluginState T (libinjection signedChar K) A cfg false) (buildRequest P cfg host body) env =
      (.allow, none, [], env') := judge_allow S rfl hverdicts
  obtain ⟨env', hjudge⟩ := hallow
  have hcfg : (pluginState T (libinjection signedChar K) A cfg false).cfg = cfg := rfl
  unfold inspect
  simp only [hcfg, hread, hok, Option.map_some, hnotBlocked, hjudge, Bool.false_eq_true, if_false]
  exact ⟨_, rfl, rfl, rfl, rfl, rfl⟩

/-- The default configuration with nothing but the injection detector. -/
def injectionOnly : Config := { enforcing with
  groups := { injection := some ⟨true, .enforce⟩, signatures := none, structural := none, reputation := none } }

theorem inspect_passes_order : ∃ out,
    inspect PercentDecoder.standard Json.standard
      (pluginState Target.wasm32 (libinjection true KeywordTable.excerpt)
      (AhoCorasick.standard patterns patterns_ne_nil)
        injectionOnly false)
      (hostOf (ascii "order" ++ (32 :: (ascii "12" ++ [])))) ⟨Reputation.Limiter.new 1 ⟨1, Target.wasm32.one_le⟩, 0⟩ =
        some out ∧ out.action = .allow ∧ out.response = none ∧ out.logs = [] := by
  obtain ⟨drained, body, hread, hok⟩ : ∃ drained body,
      (hostOf (ascii "order" ++ (32 :: (ascii "12" ++ [])))).readRequestBody 1048576 true = some drained ∧
        drained.result = .ok body := ⟨_, _, rfl, rfl⟩
  have hfields : hostFields PercentDecoder.standard (hostOf (ascii "order" ++ (32 :: (ascii "12" ++ [])))) body =
      [[], ascii "order" ++ (32 :: (ascii "12" ++ []))] := by
    unfold hostFields fieldsOf
    rw [bytes_hostOf (by decide) rfl hread hok]
    rfl
  have hprose : Prose KeywordTable.excerpt (ascii "order" ++ (32 :: (ascii "12" ++ []))) := by
    refine .word ⟨isName_cons (by decide) (by decide), by decide, by decide⟩ ?_ (.white (by decide) ?_)
    · rintro b hb
      cases hb
      rfl
    · exact .number ⟨by decide, by decide⟩ (fun b hb => by cases hb) .nil
  obtain ⟨out, hout, hallow, hresponse, hlogs, -⟩ := inspect_passes_prose PercentDecoder.standard Json.standard
    (AhoCorasick.standard patterns patterns_ne_nil) true KeywordTable.excerpt injectionOnly
    ⟨Reputation.Limiter.new 1 ⟨1, Target.wasm32.one_le⟩, 0⟩ rfl hread hok (Or.inr rfl) (by decide)
    (by rw [hfields]; exact List.forall_mem_cons.mpr ⟨.nil, List.forall_mem_singleton.mpr hprose⟩)
    (fun ua hua => by cases hua)
  exact ⟨out, hout, hallow, hresponse, hlogs⟩

end PurpleWolf.Traefik
