import PrismProxy.AcmeProvision
import PrismProxy.HttpMessage

/-! # The two responders of HTTP-01

The challenge server `provision` binds answers from the map it was given; the redirect server
answers from the shared store and sends everything else to HTTPS. Each has its own lookup. -/
namespace ChallengeResponders

open AcmeProvision HttpMessage

def challengePrefix : String := "/.well-known/acme-challenge/"

/-- `str::strip_prefix`. -/
def stripPrefix (s lead : String) : Option String :=
  if ProxyConfig.startsWith s lead then some (String.ofList (s.toList.drop lead.length)) else none

/-- The service of `run_challenge_server_with_listener`. -/
def challengeServer (challenges : ChallengeMap) (req : Request) : Response :=
  match (stripPrefix req.uri.path challengePrefix).bind challenges with
  | some keyAuth => textResponse 200 "text/plain" keyAuth
  | none => ⟨404, [], []⟩

/-- `HeaderValue::to_str`: visible ASCII only. -/
def toStr (value : String) : Option String :=
  if value.toList.all fun c => (32 ≤ c.toNat && c.toNat < 127) || c == '\t' then some value
  else none

/-- The host of a `Host` header, without its port; none gives the empty text. -/
def redirectHost (headers : HeaderMap) : String :=
  (((headers.get "host").bind toStr).map fun h =>
    String.ofList (h.toList.takeWhile (· ≠ ':'))).getD ""

def pathAndQuery (uri : Uri) : String := uri.path ++ (uri.query.elim "" fun q => "?" ++ q)

/-- The `Display` of a `Uri`: what it has of scheme and authority, then path and query. -/
def displayUri (uri : Uri) : String :=
  uri.scheme.elim "" (fun s => s ++ "://") ++ uri.authority.getD "" ++ pathAndQuery uri

def redirectLocation (httpsPort : ℕ) (req : Request) : String :=
  let host := redirectHost req.headers
  if httpsPort = 443 then "https://" ++ host ++ displayUri req.uri
  else "https://" ++ host ++ ":" ++ toString httpsPort ++ displayUri req.uri

/-- The service of `run_http_redirect_server_with_listener`. -/
def redirectServer (httpsPort : ℕ) (challenges : ChallengeMap) (req : Request) : Response :=
  match (stripPrefix req.uri.path challengePrefix).bind challenges with
  | some keyAuth => textResponse 200 "text/plain" keyAuth
  | none => ⟨301, [("location", redirectLocation httpsPort req)], []⟩

theorem stripPrefix_append (lead rest : String) : stripPrefix (lead ++ rest) lead = some rest := by
  unfold stripPrefix
  rw [if_pos (ProxyConfig.startsWith_iff.mpr (by simp)), String.toList_append,
    ← String.length_toList, List.drop_left, String.ofList_toList]

theorem challengeServer_found {challenges : ChallengeMap} {req : Request} {token keyAuth : String}
    (hpath : req.uri.path = challengePrefix ++ token) (h : challenges token = some keyAuth) :
    challengeServer challenges req = textResponse 200 "text/plain" keyAuth := by
  simp only [challengeServer, hpath, stripPrefix_append, Option.bind_some, h]

theorem redirectServer_found {httpsPort : ℕ} {challenges : ChallengeMap} {req : Request}
    {token keyAuth : String} (hpath : req.uri.path = challengePrefix ++ token)
    (h : challenges token = some keyAuth) :
    redirectServer httpsPort challenges req = textResponse 200 "text/plain" keyAuth := by
  simp only [redirectServer, hpath, stripPrefix_append, Option.bind_some, h]

theorem redirectServer_empty (httpsPort : ℕ) (req : Request) :
    redirectServer httpsPort noChallenges req =
      ⟨301, [("location", redirectLocation httpsPort req)], []⟩ := by
  unfold redirectServer
  cases stripPrefix req.uri.path challengePrefix <;> rfl

example : redirectLocation 8443
    ⟨"GET", .origin "/a" (some "b=1"), [("host", "shop.example:80")], []⟩ =
      "https://shop.example:8443/a?b=1" := by decide

end ChallengeResponders
