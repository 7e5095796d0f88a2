import PurpleWolf.Lib.JsonParser
import PurpleWolf.Traefik.Entry

/-! # What is forwarded is what was received

Inspecting a body consumes it: the guest hands every chunk back with `preserve`.
`inspect_allow` says that a request is let through only if its body was not touched or has
been handed back in full. -/

namespace PurpleWolf.Traefik

variable {Env : Type} (P : PercentDecoder) (S : Json.Codec)

/-- The chunks handed back are the bytes that the host delivered up to the end of the
stream, `read` and `last` being the answers up to the one that signalled it. -/
structure Reconstructed (host : Host) (preserved : List Bytes) (unread read : List BodyAnswer)
    (last : BodyAnswer) : Prop where
  answers : host.bodyAnswers = read ++ last :: unread
  running : ∀ a ∈ read, a.eof = false
  ended : last.eof = true
  preserved : preserved.flatten = (read ++ [last]).flatMap BodyAnswer.chunk

theorem readRequestBody_ok {host : Host} {max : ℕ} {preserveAfterCap : Bool} {d : Drained} {body : BodyRead}
    (h : host.readRequestBody max preserveAfterCap = some d) (hok : d.result = .ok body) :
    (∃ read last, Reconstructed host d.preserved d.unread read last) ∨
      (preserveAfterCap = false ∧ body.exceeded = true) := by
  unfold Host.readRequestBody at h
  split_ifs at h
  · rcases drainLoop_spec _ _ _ _ _ h with ⟨e, he, -⟩ | ⟨body', hok', read, last, hanswers, hread, hlast, hpreserved⟩
    · rw [hok] at he
      cases he
    · rw [hok] at hok'
      cases hok'
      rcases hlast with heof | hcap
      · exact Or.inl ⟨read, last, hanswers, hread, heof, by simpa using hpreserved⟩
      · exact Or.inr hcap
  · cases h
    cases hok

/-- Only a refused negotiation is forgiven, before anything has been read. -/
theorem readRequestBody_error {host : Host} {max : ℕ} {preserveAfterCap : Bool} {d : Drained}
    {e : BodyReadError} (h : host.readRequestBody max preserveAfterCap = some d) (he : d.result = .error e)
    (hsafe : e.forwardingIsSafe = true) :
    host.enableRequestBuffering = false ∧ d.preserved = [] ∧ d.unread = host.bodyAnswers := by
  unfold Host.readRequestBody at h
  split_ifs at h with hbuffering
  · rcases drainLoop_spec _ _ _ _ _ h with ⟨e', he', hlost⟩ | ⟨body, hok, -⟩
    · rw [he] at he'
      cases he'
      rw [hlost] at hsafe
      cases hsafe
    · rw [he] at hok
      cases hok
  · cases h
    exact ⟨by simpa using hbuffering, rfl, rfl⟩

theorem failurePolicy_allow {e : BodyReadError} {failMode : FailMode}
    (h : (failurePolicy e failMode).1 = .allow) : e.forwardingIsSafe = true ∧ failMode = .failOpen := by
  unfold failurePolicy at h
  split at h
  · cases h
  · exact ⟨‹_›, rfl⟩
  · cases h

/-- **What an allowed request has gone through.**  Either the host refused to buffer the
body, nothing of it was read, and the plugin fails open; or the body read succeeded and
the chunks handed back are exactly what the host delivered up to the end of the stream. -/
theorem inspect_allow {state : PluginState Env} {host : Host} {env : Env} {out : Outcome Env}
    (h : inspect P S state host env = some out) (hallow : out.action = .allow) :
    (host.enableRequestBuffering = false ∧ state.cfg.failMode = .failOpen ∧ out.preserved = [] ∧
        out.unread = host.bodyAnswers) ∨
      ∃ body read last,
        host.readRequestBody state.cfg.body.maxInspectBytes (state.cfg.body.overCap == .pass) =
          some ⟨.ok body, out.preserved, out.unread⟩ ∧
        Reconstructed host out.preserved out.unread read last := by
  unfold inspect at h
  obtain ⟨⟨result, preserved, unread⟩, hd, rfl⟩ := Option.map_eq_some_iff.mp h
  cases result with
  | error e =>
      obtain ⟨hsafe, hopen⟩ := failurePolicy_allow hallow
      obtain ⟨hrefused, hpreserved, hunread⟩ := readRequestBody_error hd rfl hsafe
      exact Or.inl ⟨hrefused, hopen, hpreserved, hunread⟩
  | ok body =>
      simp only at hallow ⊢
      split_ifs at hallow ⊢ with hover
      · right
        rcases readRequestBody_ok hd rfl with ⟨read, last, hrec⟩ | ⟨hcap, hexceeded⟩
        · exact ⟨body, read, last, hd, hrec⟩
        · exfalso
          apply hover
          cases hpolicy : state.cfg.body.overCap with
          | pass =>
              rw [hpolicy] at hcap
              cases hcap
          | block =>
              rw [hexceeded]
              rfl

/-- A host that delivers two bytes, and one more with the end of the stream. -/
def twoChunks : Host where
  method _ := (Vector.replicate _ 0, 0)
  uri _ := (Vector.replicate _ 0, 0)
  sourceAddr _ := (Vector.replicate _ 0, 0)
  headerNames _ := (Vector.replicate _ 0, 0)
  headerValues _ _ := (Vector.replicate _ 0, 0)
  features := 1
  body := [(Vector.replicate _ 0x61, 2), (Vector.replicate _ 0x62, 0x100000001)]

/-- A plugin that cuts the inspected body at one byte and has nothing to detect. -/
def oneByteCap : PluginState Unit where
  cfg := ⟨.enforce, .failClosed, ⟨1, .pass⟩, Groups.allMonitor, ReputationConfig.default, ⟨0⟩, ∅⟩
  engine := ⟨[]⟩
  fallback := false

theorem inspect_allow_twoChunks : ∃ out,
    inspect PercentDecoder.standard Json.standard oneByteCap twoChunks () = some out ∧ out.action = .allow ∧
      ∃ body read last,
        twoChunks.readRequestBody 1 true = some ⟨.ok body, out.preserved, out.unread⟩ ∧
        Reconstructed twoChunks out.preserved out.unread read last := by
  have hout : ∃ out, inspect PercentDecoder.standard Json.standard oneByteCap twoChunks () = some out ∧
      out.action = .allow := ⟨_, rfl, rfl⟩
  obtain ⟨out, h, hallow⟩ := hout
  refine ⟨out, h, hallow, ?_⟩
  rcases inspect_allow PercentDecoder.standard Json.standard h hallow with ⟨hrefused, -⟩ | hread
  · exact absurd hrefused (by decide)
  · exact hread

end PurpleWolf.Traefik
