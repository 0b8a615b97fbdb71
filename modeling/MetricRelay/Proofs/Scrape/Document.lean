import MetricRelay.Proofs.Catalog.Location
import MetricRelay.Proofs.Scrape.Duel
import MetricRelay.Proofs.Scrape.Run

/-!
# Shared documents

A document is loaded once for each location, with the method and the decoder of
the resource whose task comes first. So every metric gets what a fetch of its
own would give it in every run exactly if the resources of one location agree
on the decoder and, over the network, on the method.
-/

namespace MetricRelay

open Catalog (Service Resource Metric Planned)

/-- Sources whose answer to a request depends on nothing but the request. -/
structure Upstream where
  /-- The answer to a method and a location. -/
  web : String → String → Answer
  disk : String → Answer

namespace Upstream

def answer (u : Upstream) (s : Service) (r : Resource) : Answer :=
  if s.protocol.isHttp then u.web r.method r.url else u.disk r.url

/-- The result of a metric for which its own resource is fetched, decoded and shaped. -/
def plain (u : Upstream) (s : Service) (r : Resource) (m : Metric) :
    Except ScrapeError TaskValue :=
  match u.answer s r with
  | .error e => .error (.fetch e)
  | .ok body =>
    match r.decoder.decode body with
    | .error e => .error (.fetch (.decode e))
    | .ok doc =>
      match shape m doc with
      | .error e => .error (.shape e)
      | .ok value => .ok (.shaped value)

/-- The world answers the request of the job as the upstream does, sooner or later. -/
def Answers (u : Upstream) (job : ScrapeJob) (w : World) : Prop :=
  ∀ scene, job.scene? w = some scene →
    (w.supply.sources.send scene.service.protocol
      { method := scene.resource.method, url := scene.resource.url }).1.answer =
        u.answer scene.service scene.resource

end Upstream

namespace Catalog

def Resource.Feeds (r : Resource) : Prop := r.kind = .api ∧ r.metrics ≠ []

instance (r : Resource) : Decidable r.Feeds := inferInstanceAs (Decidable (_ ∧ _))

/-- Resources of one location agree on what the requests for it are and on what the answers mean.
A file is read in one way whatever the method. -/
def SourcesAgree (c : Catalog) : Prop :=
  ∀ r ∈ c.resources, ∀ r' ∈ c.resources, r.Feeds → r'.Feeds → r.url = r'.url →
    r.decoder = r'.decoder ∧
      ∀ s ∈ c.service? r.service, s.protocol.isHttp = true → r.method = r'.method

instance (c : Catalog) : Decidable c.SourcesAgree :=
  inferInstanceAs (Decidable (∀ r ∈ c.resources, ∀ r' ∈ c.resources, _))

theorem Planned.feeds {c : Catalog} {task : ScrapeTask} {s : Service} {r : Resource}
    (h : c.Planned task s r) (hmetric : Race.IsMetric task) : r.Feeds := by
  cases task with
  | forward service resource => cases hmetric
  | metric service resource id =>
    obtain ⟨hkind, hid⟩ := h.metric
    exact ⟨hkind, List.ne_nil_of_mem hid⟩

end Catalog

namespace Race

/-- Every metric ends with what a fetch of its own resource gives. -/
def Plain (c : Catalog) (u : Upstream) (race : Race) : Prop :=
  ∀ service resource id finished result,
    race.Reports ⟨.metric service resource id, finished, result⟩ →
      ∃ s r m, c.service? service = some s ∧ c.resource? resource = some r ∧
        c.metric? id = some m ∧ result = u.plain s r m

def Setting.ofUpstream (c : Catalog) (number first : Nat) (u : Upstream) : Setting where
  catalog := c
  number
  first
  rule := u.Answers

variable {c : Catalog} {number first : Nat} {u : Upstream}

/-! ### What the shelf makes of an answer -/

theorem documentShelf_congr {s s' : Service} {r r' : Resource} {answer : Answer}
    (h : r.decoder = r'.decoder) : Snapshot.documentShelf.decodeAnswer s r answer =
      Snapshot.documentShelf.decodeAnswer s' r' answer := by
  simp only [Snapshot.Shelf.decodeAnswer, Snapshot.documentShelf, h]

theorem plain_eq (u : Upstream) (s : Service) (r : Resource) (m : Metric) :
    u.plain s r m = ((Snapshot.documentShelf.decodeAnswer s r (u.answer s r)).mapError
      .fetch).bind (ScrapeJob.concludeMetric m) := by
  rw [Upstream.plain, Snapshot.Shelf.decodeAnswer, Snapshot.documentShelf]
  cases u.answer s r with
  | error e => rfl
  | ok body =>
    simp only [Except.bind]
    cases r.decoder.decode body with
    | error e => rfl
    | ok doc =>
      simp only [Except.mapError, ScrapeJob.concludeMetric]
      cases shape m doc <;> rfl

/-! ### Resources that agree -/

/-- Without auth, every resource is fetched without a token. -/
theorem auth_ofResource (hunlocked : c.Unlocked) (policy : RefreshPolicy) (s : Service)
    (r : Resource) : (FetchPlan.ofResource c policy s r).auth = none := by
  simp [FetchPlan.ofResource, hunlocked.authFor?]

/-- Without auth, a talk of a resource ends with the answer of the upstream. -/
theorem honest_upstream (hunlocked : c.Unlocked) :
    Honest (.ofUpstream c number first u) (fun s r => FetchCall.Plain s.protocol (u.answer s r))
      fun s r answer => answer = u.answer s r where
  fresh s r := FetchCall.plain_fresh s.protocol (u.answer s r)
  turn := by
    intro job w scene now caller hanswers hcatalog hscene talk hplain
    have hcatalog : w.catalog = c := hcatalog
    rw [hcatalog]
    exact FetchCall.plain_turn (auth_ofResource hunlocked ..) (hanswers scene hscene) hplain

/-- Resources of one location that agree get the same answer. -/
theorem answer_eq_of_agree (hindexed : c.Indexed) (hagree : c.SourcesAgree) (u : Upstream)
    {t t' : ScrapeTask} {s s' : Service} {r r' : Resource} (hp : c.Planned t s r)
    (hp' : c.Planned t' s' r') (ht : IsMetric t) (ht' : IsMetric t') (hurl : r.url = r'.url) :
    r.decoder = r'.decoder ∧ u.answer s r = u.answer s' r' := by
  have hr := Catalog.mem_of_resource? hp.resource
  have hr' := Catalog.mem_of_resource? hp'.resource
  obtain ⟨hdecoder, hmethod⟩ := hagree r hr r' hr' (hp.feeds ht) (hp'.feeds ht') hurl
  refine ⟨hdecoder, ?_⟩
  have hhttp := hindexed.isHttp_eq hr hr' hp.owner hp'.owner hurl
  rw [Upstream.answer, Upstream.answer, ← hhttp, ← hurl]
  split
  · next hweb => rw [hmethod s hp.owner hweb]
  · rfl

/-- Where resources of one location agree, every run is a plain one. -/
theorem plain_of_agree (hindexed : c.Indexed) (hunlocked : c.Unlocked) (hagree : c.SourcesAgree)
    {race : Race} (hrace : Reachable (.ofUpstream c number first u) race) : race.Plain c u := by
  intro service resource id finished result hreport
  obtain ⟨s, r, hp, m, value, hm, ⟨loader, s', r', answer, hsort, hp', hurl, rfl, rfl⟩, hresult⟩ :=
    (hrace.sound hindexed (honest_upstream hunlocked)).reports _ hreport
  obtain ⟨hdecoder, hanswer⟩ := answer_eq_of_agree hindexed hagree u hp hp' rfl hsort hurl.symm
  refine ⟨s, r, m, hp.service, hp.resource, hm, ?_⟩
  rw [plain_eq, hanswer, documentShelf_congr hdecoder]
  exact hresult

end Race

/-! ### Resources that do not -/

namespace Upstream

/-- The network answers every method in its own way, and every file has one content. -/
def scripted (response : String → Response) (content : Text.Bytes) : Upstream where
  web method url := (response method).answer url
  disk _ := .ok content

theorem send_scripted (response : String → Response) (content : Text.Bytes) (s : Service)
    (r : Resource) : ((Sources.serving r.url (response r.method) content).send s.protocol
      { method := r.method, url := r.url }).1 = ⟨(scripted response content).answer s r, 0⟩ := by
  rw [answer]
  cases hprotocol : s.protocol with
  | file => exact Sources.send_serving_file ..
  | http => exact Sources.send_serving_web _ _ rfl rfl
  | https => exact Sources.send_serving_web _ _ rfl rfl

end Upstream

namespace Race

/-- Without auth the answer of a scripted upstream comes in one turn. -/
theorem turn_scripted (hunlocked : c.Unlocked) (response : String → Response)
    (content : Text.Bytes) (s : Service) (r : Resource) (now caller : Nat) :
    (Talk.turn (FetchCall.dialogue (FetchPlan.ofResource c .auth s r)) now caller
      (World.serving c r.url (response r.method) content).supply
        { protocol := s.protocol, state := .fresh }).pause =
      .done ((Upstream.scripted response content).answer s r) := by
  have hsend := Upstream.send_scripted response content s r
  rw [FetchCall.turn_plain (auth_ofResource hunlocked ..) (congrArg Reply.delay hsend)]
  exact congrArg Talk.Pause.done (congrArg Reply.answer hsend)

variable (number first) in
theorem entrant_scripted (hindexed : c.Indexed) (response : String → Response)
    (content : Text.Bytes) {r : Resource} (hr : r ∈ c.resources) (hkind : r.kind = .api)
    {id : MetricId} (hid : id ∈ r.metrics) :
    ∃ s, c.service? r.service = some s ∧
      Entrant (.ofUpstream c number first (.scripted response content))
        (.metric r.service r.id id) s r (.serving c r.url (response r.method) content) := by
  obtain ⟨s, hs, -, hplanned⟩ := hindexed.mem_plan hr
  obtain ⟨hmem, hp⟩ := hplanned (.metric r.service r.id id) (by simp [Catalog.tasksOf, hkind, hid])
  refine ⟨s, hs, hmem, hp, rfl, ?_⟩
  intro job snapshots htask scene hscene
  obtain ⟨resource, hresource, hscene⟩ := Option.bind_eq_some_iff.mp hscene
  obtain ⟨service, hservice, hscene⟩ := Option.bind_eq_some_iff.mp hscene
  obtain ⟨snapshot, -, hscene⟩ := Option.bind_eq_some_iff.mp hscene
  obtain rfl := Option.some.inj hscene
  rw [htask] at hresource
  obtain rfl := Option.some.inj (hp.resource.symm.trans hresource)
  obtain rfl := Option.some.inj (hp.owner.symm.trans hservice)
  exact congrArg Reply.answer (Upstream.send_scripted response content s r)

/-- If every run is plain, two resources of one location make the same of their answers. -/
theorem concluded_eq_of_plain (hindexed : c.Indexed) (hunlocked : c.Unlocked)
    (hplain : ∀ u race, Reachable (.ofUpstream c number first u) race → race.Plain c u)
    {r r' : Resource} (hr : r ∈ c.resources) (hr' : r' ∈ c.resources) (hfeeds : r.Feeds)
    (hfeeds' : r'.Feeds) (hurl : r.url = r'.url) (hne : r ≠ r') (response : String → Response)
    (content : Text.Bytes) : ∃ s s' m, c.service? r.service = some s ∧
      c.service? r'.service = some s' ∧
      ((Snapshot.documentShelf.decodeAnswer s r ((Upstream.scripted response content).answer s
        r)).mapError .fetch).bind (ScrapeJob.concludeMetric m) =
      ((Snapshot.documentShelf.decodeAnswer s' r' ((Upstream.scripted response content).answer s'
        r')).mapError .fetch).bind (ScrapeJob.concludeMetric m) := by
  obtain ⟨id, hid⟩ := List.exists_mem_of_ne_nil _ hfeeds.2
  obtain ⟨id', hid'⟩ := List.exists_mem_of_ne_nil _ hfeeds'.2
  obtain ⟨s, hs, hentrant⟩ :=
    entrant_scripted number first hindexed response content hr hfeeds.1 hid
  obtain ⟨s', hs', hentrant'⟩ :=
    entrant_scripted number first hindexed response content hr' hfeeds'.1 hid'
  obtain ⟨m, hm⟩ := hindexed.planned_metric hentrant.planned
  obtain ⟨m', hm'⟩ := hindexed.planned_metric hentrant'.planned
  have htasks : ScrapeTask.metric r.service r.id id ≠ .metric r'.service r'.id id' := by
    intro heq
    have hresource := hentrant'.planned.resource
    rw [← heq] at hresource
    exact hne (Option.some.inj (hentrant.planned.resource.symm.trans hresource))
  obtain ⟨race, hrace, hreport⟩ := overtaken Snapshot.documentShelf_lawful (fun _ => rfl) hentrant
    hentrant' htasks hurl (turnsAt_metric hm _ _) (turnsAt_metric hm' _ _) (fun _ => rfl)
    fun now caller => turn_scripted hunlocked response content s r now caller
  obtain ⟨service, resource, metric, hservice, hresource, hmetric, hresult⟩ :=
    hplain _ race hrace _ _ _ _ _ hreport
  obtain rfl := Option.some.inj (hservice.symm.trans hs')
  obtain rfl := Option.some.inj (hresource.symm.trans hentrant'.planned.resource)
  obtain rfl := Option.some.inj (hmetric.symm.trans hm')
  exact ⟨s, service, metric, hs, hs', hresult.trans (plain_eq ..)⟩

/-- A body that is no text in any dialect; the error tells which dialect was tried. -/
theorem decode_garbage (d : Dialect) : ∃ e : DecodeError, d.decode [0xFF] = .error e ∧
    e.dialect = d := by
  obtain ⟨fault, hfault⟩ : ∃ fault, Text.Utf8.decode [0xFF] = .error fault := by
    simp [Text.Utf8.decode, Text.Utf8.decodeFrom, Text.Utf8.head]
  cases d with
  | json =>
    refine ⟨DecodeError.ofBody .json fault.message [0xFF], ?_, rfl⟩
    simp only [Dialect.decode, Node.ofJsonBody, hfault]
  | prometheus =>
    refine ⟨DecodeError.ofBody .prometheus fault.message [0xFF], ?_, rfl⟩
    simp only [Dialect.decode, Exposition.read, hfault, Except.map]

theorem decoder_eq_of_plain (hindexed : c.Indexed) (hunlocked : c.Unlocked)
    (hplain : ∀ u race, Reachable (.ofUpstream c number first u) race → race.Plain c u)
    {r r' : Resource} (hr : r ∈ c.resources) (hr' : r' ∈ c.resources) (hfeeds : r.Feeds)
    (hfeeds' : r'.Feeds) (hurl : r.url = r'.url) (hne : r ≠ r') : r.decoder = r'.decoder := by
  obtain ⟨s, s', m, -, -, hsame⟩ := concluded_eq_of_plain hindexed hunlocked hplain hr hr' hfeeds
    hfeeds' hurl hne (fun _ => .body [0xFF]) [0xFF]
  have hbody : ∀ (s : Service) (r : Resource),
      (Upstream.scripted (fun _ => .body [0xFF]) [0xFF]).answer s r = .ok [0xFF] := by
    intro s r
    rw [Upstream.answer]
    split <;> rfl
  obtain ⟨e, he, hdialect⟩ := decode_garbage r.decoder
  obtain ⟨e', he', hdialect'⟩ := decode_garbage r'.decoder
  rw [hbody, hbody] at hsame
  simp only [Snapshot.Shelf.decodeAnswer, Snapshot.documentShelf, Except.bind, he, he',
    Except.mapError] at hsame
  cases hsame
  exact hdialect.symm.trans hdialect'

theorem method_eq_of_plain (hindexed : c.Indexed) (hunlocked : c.Unlocked)
    (hplain : ∀ u race, Reachable (.ofUpstream c number first u) race → race.Plain c u)
    {r r' : Resource} (hr : r ∈ c.resources) (hr' : r' ∈ c.resources) (hfeeds : r.Feeds)
    (hfeeds' : r'.Feeds) (hurl : r.url = r'.url) (hne : r ≠ r') {s : Service}
    (hs : c.service? r.service = some s) (hweb : s.protocol.isHttp = true) :
    r.method = r'.method := by
  by_contra hmethod
  let response : String → Response := fun method => .status (if method = r.method then 500 else 404)
  obtain ⟨owner, s', m, howner, hs', hsame⟩ := concluded_eq_of_plain hindexed hunlocked hplain hr
    hr' hfeeds hfeeds' hurl hne response []
  obtain rfl := Option.some.inj (hs.symm.trans howner)
  have hweb' : s'.protocol.isHttp = true :=
    (hindexed.isHttp_eq hr hr' hs hs' hurl).symm.trans hweb
  have hanswer : (Upstream.scripted response []).answer s r = .error (.status r.url 500) := by
    simp [Upstream.answer, Upstream.scripted, hweb, response, Response.answer]
  have hanswer' : (Upstream.scripted response []).answer s' r' = .error (.status r'.url 404) := by
    simp [Upstream.answer, Upstream.scripted, hweb', response, Response.answer, Ne.symm hmethod]
  rw [hanswer, hanswer'] at hsame
  simp [Snapshot.Shelf.decodeAnswer, Except.bind, Except.mapError] at hsame

/-- If every run is plain, the resources of one location agree. -/
theorem agree_of_plain (hindexed : c.Indexed) (hunlocked : c.Unlocked)
    (hplain : ∀ u race, Reachable (.ofUpstream c number first u) race → race.Plain c u) :
    c.SourcesAgree := by
  intro r hr r' hr' hfeeds hfeeds' hurl
  by_cases hsame : r = r'
  · subst hsame
    exact ⟨rfl, fun _ _ _ => rfl⟩
  · constructor
    · exact decoder_eq_of_plain hindexed hunlocked hplain hr hr' hfeeds hfeeds' hurl hsame
    · intro s hs hweb
      exact method_eq_of_plain hindexed hunlocked hplain hr hr' hfeeds hfeeds' hurl hsame hs hweb

/-- Without auth, and with sources whose answers depend on the requests only, every metric ends
with what a fetch of its own gives in every run, exactly if the resources of one location agree. -/
theorem plain_iff_agree {c : Config} (hopen : c.WithoutAuth) (number first : Nat) :
    (∀ u race, Reachable (.ofUpstream c.catalog number first u) race → race.Plain c.catalog u) ↔
      c.catalog.SourcesAgree := by
  have hindexed : c.catalog.Indexed := Catalog.build_indexed c.definitions
  constructor
  · exact agree_of_plain hindexed hopen.unlocked
  · intro hagree u race hrace
    exact plain_of_agree hindexed hopen.unlocked hagree hrace

/-! ### Two readers of one location -/

def gauge (name : String) : Config.Metric where
  name
  type := .gauge
  description := ""
  solver := ⟨"JsonPath", "/value"⟩
  labels := []
  histogram := none
  itemPath := none

/-- An api resource at one fixed place that one metric is read from. -/
def reader (name metric : String) (decoder : Dialect) : Config.Resource where
  name
  uri := "/stats"
  method := "GET"
  kind := .api
  decoder
  metrics := [metric]
  auth := none

def readers (first second : Dialect) : Config where
  settings := ⟨.default, .default, .default⟩
  definitions := [{
    service := {
      name := "app", protocol := .http, host := "127.0.0.1", port := 8080, basePath := ""
      auth := none }
    metrics := [gauge "load", gauge "users"]
    resources := [reader "one" "load" first, reader "two" "users" second] }]

theorem readers_withoutAuth (first second : Dialect) : (readers first second).WithoutAuth := by
  simp [Config.WithoutAuth, readers, reader]

/-- Two readers with one decoder share a document. -/
theorem plain_of_one_dialect : (readers .json .json).WithoutAuth ∧
    ∀ u race, Reachable (.ofUpstream (readers .json .json).catalog 0 0 u) race →
      race.Plain (readers .json .json).catalog u := by
  have hopen := readers_withoutAuth .json .json
  refine ⟨hopen, (plain_iff_agree hopen 0 0).mpr ?_⟩
  decide +kernel

/-- Of two readers with two decoders one gets what is not its own. -/
theorem not_plain_of_two_dialects :
    (readers .json .prometheus).problems Url.hosted = [] ∧ (readers .json .prometheus).WithoutAuth ∧
      ∃ u race, Reachable (.ofUpstream (readers .json .prometheus).catalog 0 0 u) race ∧
        ¬ race.Plain (readers .json .prometheus).catalog u := by
  have hopen := readers_withoutAuth .json .prometheus
  refine ⟨by decide +kernel, hopen, ?_⟩
  by_contra hnone
  have hplain : ∀ u race, Reachable (.ofUpstream (readers .json .prometheus).catalog 0 0 u) race →
      race.Plain (readers .json .prometheus).catalog u := by
    intro u race hrace
    by_contra hnot
    exact hnone ⟨u, race, hrace, hnot⟩
  have hagree := agree_of_plain (Catalog.build_indexed _) hopen.unlocked hplain
  revert hagree
  decide +kernel

end Race

/-! ### Sources that never change -/

/-- No location has a second response in line. -/
def Network.Steady (n : Network) : Prop := ∀ url, (n.queue url).length ≤ 1

theorem Network.queue_congr {n n' : Network} (h : n'.queues = n.queues) (url : String) :
    n'.queue url = n.queue url := by
  rw [queue, queue, h]

theorem Network.request_queues {n : Network} {r : Request} (h : (n.queue r.url).length ≤ 1) :
    (n.request r).2.queues = n.queues := by
  have hsame : ({ n with log := n.log ++ [r] } : Network).queue r.url = n.queue r.url := rfl
  simp only [request, hsame]
  split
  · rfl
  · rfl
  · next first rest hlong hqueue =>
    rw [hqueue] at h
    cases rest with
    | nil => exact (hlong rfl).elim
    | cons second rest => simp at h

theorem Network.request_congr {n n' : Network} {r : Request} (h : n'.queue r.url = n.queue r.url) :
    (n'.request r).1 = (n.request r).1 := by
  have hsame : ∀ n : Network, ({ n with log := n.log ++ [r] } : Network).queue r.url =
      n.queue r.url := fun _ => rfl
  simp only [request, hsame, h]
  split <;> rfl

/-- Sources that differ in their logs at most. -/
structure Sources.Alike (s s' : Sources) : Prop where
  queues : s'.network.queues = s.network.queues
  files : s'.files = s.files
  fileLimit : s'.fileLimit = s.fileLimit

theorem Sources.Alike.send {s s' : Sources} (hsteady : s.network.Steady) (h : s.Alike s')
    (protocol : Protocol) (r : Request) : s.Alike (s'.send protocol r).2 := by
  have hshort : (s'.network.queue r.url).length ≤ 1 :=
    Network.queue_congr h.queues r.url ▸ hsteady r.url
  have hqueues := (Network.request_queues hshort).trans h.queues
  cases protocol with
  | file => exact h
  | http => exact ⟨hqueues, h.files, h.fileLimit⟩
  | https => exact ⟨hqueues, h.files, h.fileLimit⟩

def Upstream.ofSources (s : Sources) : Upstream where
  web method url := (s.network.request { method, url }).1.answer
  disk url := Disk.fetch s.files s.fileLimit url

theorem Sources.Alike.answers {s : Sources} {w : World} (h : s.Alike w.supply.sources)
    (job : ScrapeJob) : (Upstream.ofSources s).Answers job w := by
  intro scene _
  rw [Upstream.answer]
  cases hprotocol : scene.service.protocol with
  | file =>
    change Disk.fetch _ _ _ = Disk.fetch _ _ _
    rw [h.files, h.fileLimit]
  | http => exact congrArg Reply.answer (Network.request_congr (Network.queue_congr h.queues _))
  | https => exact congrArg Reply.answer (Network.request_congr (Network.queue_congr h.queues _))

namespace Exporter

/-- In particular a scrape of an exporter with steady sources gives every metric that is not late
what a fetch of its own gives. -/
theorem reports_plain {e : Exporter} (hindexed : e.catalog.Indexed) (hunlocked : e.catalog.Unlocked)
    (hagree : e.catalog.SourcesAgree) (horderly : e.IsOrderly)
    (hsteady : e.world.supply.sources.network.Steady) {service : ServiceId}
    {resource : ResourceId} {id : MetricId} {finished : Nat} {result : Except ScrapeError TaskValue}
    (hreport : ⟨.metric service resource id, finished, result⟩ ∈ e.reports) :
    result = .error .timeout ∨ result = .error .poolClosed ∨
      ∃ s r m, e.catalog.service? service = some s ∧ e.catalog.resource? resource = some r ∧
        e.catalog.metric? id = some m ∧
          result = (Upstream.ofSources e.world.supply.sources).plain s r m := by
  let u := Upstream.ofSources e.world.supply.sources
  have hupheld : Upheld (e.setting u.Answers)
      fun w => e.world.supply.sources.Alike w.supply.sources := by
    constructor
    · intro now me a w h
      exact behave_sources (fun s protocol r h => h.send hsteady protocol r) h now me a
    · exact fun job w h => h.answers job
  rcases e.reports_told hindexed horderly hupheld ⟨rfl, rfl, rfl⟩ _ hreport with
    ⟨race, hrace, hgiven⟩ | hlate | hclosed
  · have hrun : Race.Reachable
        (.ofUpstream e.catalog e.world.snapshots.length e.loop.tasks.length u) race := hrace
    exact Or.inr (Or.inr (Race.plain_of_agree hindexed hunlocked hagree hrun _ _ _ _ _ hgiven))
  · exact Or.inl hlate
  · exact Or.inr (Or.inl hclosed)

end Exporter
end MetricRelay
