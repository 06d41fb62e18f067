import PrismProxy.ForwardTransparency
import PrismProxy.SocketAddrText

/-! # The host the client asked for

`Host` is set to the upstream address before `x-forwarded-host` is read from it. -/
namespace ForwardedHost

open HttpMessage ForwardTransparency SocketAddrParser
open UpstreamForward (Call stripHopByHop upstreamHeaders buildRequest)

/-- The `http` crate takes a text of visible ASCII as a header value. -/
def TakesVisible (hostParses : String → Bool) : Prop :=
  ∀ text : String, (∀ c ∈ text.toList, SocketAddrText.Visible c) → hostParses text = true

/-- `Host` is the upstream's, and the one `x-forwarded-host` is the client's `Host`. -/
structure ForwardsHost (call : Call) : Prop where
  host : (buildRequest call).headers.values "host" = [call.upstreamAddr]
  forwarded : ∀ client, call.req.headers.get "host" = some client →
    (buildRequest call).headers.values "x-forwarded-host" = [client]

theorem hosts_overwritten {call : Call} (h : call.hostParses = true) :
    (buildRequest call).headers.values "host" = [call.upstreamAddr] ∧
    (buildRequest call).headers.values "x-forwarded-host" = [call.upstreamAddr] := by
  have hread : (forwardedHeaders call).get "host" = some call.upstreamAddr := by
    rw [forwardedHeaders_host, h]
    rfl
  constructor
  · rw [buildRequest, values_upstreamHeaders call (by decide), values_forwardedHeaders,
      if_neg (by decide), if_neg (by decide), if_pos ⟨rfl, h⟩]
  · rw [buildRequest, values_forwardedHost, hread]
    rfl

/-- For every validated upstream, the client's host is forwarded exactly when it is the
upstream address already. -/
theorem forwardsHost_iff {hostParses : String → Bool} (hp : TakesVisible hostParses)
    {call : Call} {addr : SocketAddr} (hu : parseSocketAddr call.upstreamAddr = .ok addr)
    (hc : call.hostParses = hostParses call.upstreamAddr) :
    ForwardsHost call ↔
      ∀ client, call.req.headers.get "host" = some client → client = call.upstreamAddr := by
  have hset : call.hostParses = true := by
    rw [hc]
    exact hp _ (SocketAddrText.parseSocketAddr_visible hu)
  obtain ⟨hhost, hforwarded⟩ := hosts_overwritten hset
  constructor
  · intro h client hclient
    have hsame := (h.forwarded client hclient).symm.trans hforwarded
    exact List.singleton_inj.mp hsame
  · intro h
    refine ⟨hhost, ?_⟩
    intro client hclient
    rw [hforwarded, h client hclient]

theorem remove_comm (h : HeaderMap) (a b : String) :
    (h.remove a).remove b = (h.remove b).remove a := by
  simp only [HeaderMap.remove, List.filter_filter, Bool.and_comm]

theorem removeAll_comm (names : List String) (h : HeaderMap) (a : String) :
    (names.foldl HeaderMap.remove h).remove a = names.foldl HeaderMap.remove (h.remove a) := by
  induction names generalizing h with
  | nil => rfl
  | cons n names ih => rw [List.foldl_cons, List.foldl_cons, ih, remove_comm]

theorem host_forgotten {call : Call} (h : call.hostParses = true) {headers : HeaderMap}
    (hsame : headers.remove "host" = call.req.headers.remove "host") :
    buildRequest { call with req := { call.req with headers := headers } } = buildRequest call := by
  have hinsert : (stripHopByHop headers).insert "host" call.upstreamAddr =
      (stripHopByHop call.req.headers).insert "host" call.upstreamAddr := by
    rw [HeaderMap.insert, HeaderMap.insert, stripHopByHop, stripHopByHop, removeAll_comm,
      removeAll_comm, hsame]
  have hheaders : upstreamHeaders { call with req := { call.req with headers := headers } } =
      upstreamHeaders call := by
    simp only [upstreamHeaders, h, if_true, hinsert]
  simp only [buildRequest, hheaders]

def visibleText (text : String) : Bool := text.toList.all fun c => decide (SocketAddrText.Visible c)

def directCall : Call :=
  ⟨⟨"GET", .origin "/" none, [("host", "127.0.0.1:3000")], []⟩, "127.0.0.1:3000",
    visibleText "127.0.0.1:3000", 30000, "10.0.0.7", false⟩

theorem forwardsHost_iff_direct : ForwardsHost directCall := by
  have htakes : TakesVisible visibleText := by
    intro text h
    exact List.all_eq_true.mpr fun c hc => decide_eq_true (h c hc)
  have haddr : parseSocketAddr directCall.upstreamAddr = .ok (.v4 [127, 0, 0, 1] 3000) := by decide
  refine (forwardsHost_iff htakes haddr rfl).mpr ?_
  intro client hclient
  exact (Option.some.inj hclient).symm

/-- Behind a virtual host the upstream is told its own address. -/
theorem host_lost : ¬ ForwardsHost UpstreamForward.sampleCall ∧
    (buildRequest UpstreamForward.sampleCall).headers.values "x-forwarded-host" =
      ["127.0.0.1:3000"] := by
  refine ⟨?_, by decide⟩
  intro h
  have hclient := h.forwarded "shop.example" (by decide)
  exact absurd hclient (by decide)

end ForwardedHost
