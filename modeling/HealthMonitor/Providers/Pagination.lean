import HealthMonitor.Providers.Endpoint

/-!
# Pagination

Provider-specific cursors preserve completeness without redirecting credentials. URLs are
read and written by a library, of which `Urls.Lawful` says what is relied on.
-/

namespace HealthMonitor.Providers

open Json
open Integrations (TransportError)

/-- A URL library. `port` is the effective port, and an opaque origin, which equals no
other, is none. -/
structure Urls where
  Url : Type
  parse : String → Option Url
  write : Url → String
  scheme : Url → String
  username : Url → String
  password : Url → Option String
  host : Url → Option String
  port : Url → Option Nat
  path : Url → String
  fragment : Url → Option String
  origin : Url → Option (String × Option String × Option Nat)
  pairs : Url → List (String × String)
  /-- `query_pairs_mut().clear().extend_pairs(pairs)`. -/
  withPairs : Url → List (String × String) → Url

namespace Urls

variable (urls : Urls)

/-- Where a request goes. -/
def site (url : urls.Url) : String × Option String × Option Nat :=
  (urls.scheme url, urls.host url, urls.port url)

def user (url : urls.Url) : String × Option String := (urls.username url, urls.password url)

/-- The text of a URL is read back as the URL, nothing but the query depends on its pairs, and
the origin of a URL with a rooted path is its own. -/
structure Lawful : Prop where
  parse_write (url : urls.Url) : urls.parse (urls.write url) = some url
  site_withPairs (url : urls.Url) (pairs : List (String × String)) :
    urls.site (urls.withPairs url pairs) = urls.site url
  user_withPairs (url : urls.Url) (pairs : List (String × String)) :
    urls.user (urls.withPairs url pairs) = urls.user url
  path_withPairs (url : urls.Url) (pairs : List (String × String)) :
    urls.path (urls.withPairs url pairs) = urls.path url
  origin_rooted (url : urls.Url) (origin : String × Option String × Option Nat)
    (h : urls.origin url = some origin) (hpath : Text.startsWith (urls.path url) "/" = true) :
    origin = urls.site url
  path_rooted (url : urls.Url) (h : (urls.origin url).isSome = true)
    (hhost : (urls.host url).isSome = true) : Text.startsWith (urls.path url) "/" = true

end Urls

/-! ## The source -/

def validate (token previous : String) (page : Nat) (job : Job) : Except TransportError Unit :=
  if 4096 < token.utf8ByteSize || token == previous || job.settings.maxPages ≤ page then
    .error .limit
  else .ok ()

/-- The name under which the endpoint takes the cursor that was found at a path. -/
def field (endpoint : Endpoint) (job : Job) (path : String) : String :=
  let trimmed := String.ofList (path.toList.dropWhile (· == '/'))
  if job.target.provider = .gcp then "pageToken"
  else
    match endpoint.aws with
    | none => trimmed
    | some (service, _, target) =>
        if path = "/LastEvaluatedTableName" then "ExclusiveStartTableName"
        else if Text.startsWith target "query:" then
          if service ∈ ["rds", "elasticache", "elasticloadbalancing"] then "Marker"
          else "NextToken"
        else if service = "kms" then "Marker"
        else if endpoint.body.isNone then
          if service ∈ ["eks", "backup"] then "nextToken"
          else if service = "route53" then "marker"
          else if service ∈ ["lambda", "cloudfront"] then "Marker"
          else if service = "s3" then "continuation-token"
          else "NextToken"
        else trimmed

def cursorPaths : List String :=
  ["/nextPageToken", "/nextToken", "/NextToken", "/nextLink", "/NextMarker",
    "/ContinuationToken", "/$skipToken", "/LastEvaluatedTableName",
    "/DescribeDBInstancesResult/Marker", "/DescribeDBClustersResult/Marker",
    "/DescribeCacheClustersResult/Marker", "/DescribeReplicationGroupsResult/Marker",
    "/DescribeAutoScalingGroupsResult/NextToken", "/DescribeLoadBalancersResult/NextMarker",
    "/DescribeTargetGroupsResult/NextMarker", "/ListTopicsResult/NextToken"]

/-- The first path that holds a cursor, with the cursor. -/
def cursor (payload : Value) : List String → Except TransportError (Option (String × String))
  | [] => .ok none
  | path :: rest =>
      match payload.pointer path with
      | none => cursor payload rest
      | some .null => cursor payload rest
      | some (.string token) =>
          if token.isEmpty then cursor payload rest else .ok (some (path, token))
      | some _ => .error .malformed

section advance

variable (urls : Urls)

/-- The URL with these parameters put in place of those of the same names. -/
def query (endpoint : Endpoint) (replacement : List (String × String)) :
    Except TransportError Endpoint :=
  match urls.parse endpoint.url with
  | none => .error .malformed
  | some url =>
      let pairs := (urls.pairs url).filter fun pair =>
        !replacement.any fun parameter => pair.1 == parameter.1
      .ok { endpoint with
        url := urls.write
          (urls.withPairs url (pairs ++ replacement.filter fun parameter => !parameter.2.isEmpty)) }

/-- A link is followed on the same origin, within the subscription of the job, or at the
path of the vault it was found in. -/
def link (endpoint : Endpoint) (job : Job) (token : String) : Except TransportError Endpoint :=
  match urls.parse token, urls.parse endpoint.url with
  | some next, some old =>
      if urls.username next != "" || (urls.password next).isSome || (urls.fragment next).isSome
          || !((urls.origin next).isSome && urls.origin next == urls.origin old)
          || !(Text.startsWith (urls.path next) ("/subscriptions/" ++ job.target.scope ++ "/")
            || (urls.host old).any (Text.endsWith · ".vault.azure.net")
              && urls.path next == urls.path old)
      then .error .forbidden
      else .ok { endpoint with url := urls.write next }
  | _, _ => .error .malformed

/-- Record sets of a zone are continued by the name, type and identifier of the next one. -/
def recordSets (endpoint : Endpoint) (payload : Value) : Bool :=
  (endpoint.aws.any fun (service, _, _) => service == "route53")
    && Text.contains endpoint.url "/rrset"
    && boolean payload ["/IsTruncated"] == some true

def nextRecords (endpoint : Endpoint) (job : Job) (payload : Value) (previous : String)
    (page : Nat) : Except TransportError (Endpoint × String) :=
  match text payload ["/NextRecordName"], text payload ["/NextRecordType"] with
  | some name, some kind =>
      let identifier := (text payload ["/NextRecordIdentifier"]).getD ""
      let key := (Value.array [.string name, .string kind, .string identifier]).write
      match validate key previous page job with
      | .error error => .error error
      | .ok () =>
          (query urls endpoint [("name", name), ("type", kind), ("identifier", identifier)]).map
            fun endpoint => (endpoint, key)
  | _, _ => .error .malformed

/-- The endpoint that takes a cursor; none where the source panics, which is when a body
that is no object is indexed by a name. -/
def place (endpoint : Endpoint) (job : Job) (path token : String) :
    Option (Except TransportError Endpoint) :=
  if path = "/nextLink" then some (link urls endpoint job token)
  else
    match endpoint.body with
    | none => some (query urls endpoint [(field endpoint job path, token)])
    | some body =>
        let names :=
          if path = "/$skipToken" then ["options", "$skipToken"] else [field endpoint job path]
        (Value.assign (.string token) names body).map fun body =>
          .ok { endpoint with body := some body }

/-- The endpoint of the next page with the token that leads there, or the same endpoint when
this was the last page. -/
def advance (endpoint : Endpoint) (job : Job) (payload : Value) (previous : String)
    (page : Nat) : Option (Except TransportError (Endpoint × Option String)) :=
  if recordSets endpoint payload then
    some ((nextRecords urls endpoint job payload previous page).map fun next =>
      (next.1, some next.2))
  else
    match cursor payload cursorPaths with
    | .error error => some (.error error)
    | .ok none =>
        if boolean payload ["/IsTruncated", "/Truncated"] = some true then
          some (.error .malformed)
        else some (.ok (endpoint, none))
    | .ok (some (path, token)) =>
        match validate token previous page job with
        | .error error => some (.error error)
        | .ok () =>
            (place urls endpoint job path token).map fun placed =>
              placed.map fun endpoint => (endpoint, some token)

end advance

theorem exists_of_map_ok {α β ε : Type} {f : α → β} {result : Except ε α} {b : β}
    (h : result.map f = .ok b) : ∃ a, result = .ok a ∧ f a = b := by
  cases result with
  | error error => cases h
  | ok a => exact ⟨a, rfl, Except.ok.inj h⟩

/-! ## Where a request may go -/

section spec

variable {urls : Urls} {job : Job} {endpoint next : Endpoint} {payload : Value}
  {previous token : String} {page : Nat}

variable (urls job) in
/-- A request to the second URL goes to the host of the first one, to its path or to one of
the subscription of the job, and carries no credentials that the first one does not. -/
def Confined (first second : String) : Prop :=
  second = first ∨ ∃ old new, urls.parse first = some old ∧ urls.parse second = some new
    ∧ ((urls.host old).isSome = true → urls.site new = urls.site old)
    ∧ (urls.path new = urls.path old
      ∨ Text.startsWith (urls.path new) ("/subscriptions/" ++ job.target.scope ++ "/") = true)
    ∧ (urls.user new = urls.user old ∨ urls.user new = ("", none))

theorem Confined.refl (url : String) : Confined urls job url url := .inl rfl

theorem Confined.trans {first second third : String} (h : Confined urls job first second)
    (hnext : Confined urls job second third) : Confined urls job first third := by
  obtain rfl | ⟨old, mid, hold, hmid, hsite, hpath, huser⟩ := h
  · exact hnext
  obtain rfl | ⟨mid', new, hmid', hnew, hsite', hpath', huser'⟩ := hnext
  · exact .inr ⟨old, mid, hold, hmid, hsite, hpath, huser⟩
  obtain rfl : mid = mid' := Option.some.inj (hmid.symm.trans hmid')
  refine .inr ⟨old, new, hold, hnew, fun hhost => ?_, ?_, ?_⟩
  · have hmid : urls.host mid = urls.host old := congrArg (·.2.1) (hsite hhost)
    exact (hsite' (hmid ▸ hhost)).trans (hsite hhost)
  · obtain hsame | hscope := hpath'
    · rwa [hsame]
    · exact .inr hscope
  · obtain hsame | hnone := huser'
    · rwa [hsame]
    · exact .inr hnone

/-- The parts of an endpoint that no page changes. -/
def Endpoint.Same (endpoint next : Endpoint) : Prop :=
  next.id = endpoint.id ∧ next.items = endpoint.items ∧ next.aws = endpoint.aws

variable (job) in
theorem query_confined (h : urls.Lawful) {replacement : List (String × String)}
    (hquery : query urls endpoint replacement = .ok next) :
    endpoint.Same next ∧ next.body = endpoint.body ∧ Confined urls job endpoint.url next.url := by
  rw [query] at hquery
  cases hparse : urls.parse endpoint.url with
  | none =>
      rw [hparse] at hquery
      cases hquery
  | some url =>
      rw [hparse] at hquery
      cases hquery
      exact ⟨⟨rfl, rfl, rfl⟩, rfl, .inr ⟨url, _, hparse, h.parse_write _,
        fun _ => h.site_withPairs _ _,
.inl (h.path_withPairs _ _), .inl (h.user_withPairs _ _)⟩⟩

theorem rooted_of_scope {path scope : String}
    (h : Text.startsWith path ("/subscriptions/" ++ scope ++ "/") = true) :
    Text.startsWith path "/" = true := by
  obtain ⟨rest, rfl⟩ := Text.startsWith_iff.mp h
  exact Text.startsWith_iff.mpr ⟨"subscriptions/" ++ scope ++ "/" ++ rest, String.ext (by simp)⟩

theorem link_confined (h : urls.Lawful) (hlink : link urls endpoint job token = .ok next) :
    endpoint.Same next ∧ next.body = endpoint.body ∧ Confined urls job endpoint.url next.url := by
  rw [link] at hlink
  split at hlink
  · next new old hnew hold =>
      split at hlink
      · cases hlink
      · next hallowed =>
          cases hlink
          simp only [Bool.or_eq_true, not_or, Bool.not_eq_true, bne_eq_false_iff_eq,
            Bool.not_eq_false', Bool.and_eq_true, beq_iff_eq, Option.isSome_eq_false_iff,
            Option.isNone_iff_eq_none] at hallowed
          obtain ⟨⟨⟨⟨husername, hpassword⟩, -⟩, hsome, horigin⟩, hpath⟩ := hallowed
          obtain ⟨origin, hnewOrigin⟩ := Option.isSome_iff_exists.mp hsome
          refine ⟨⟨rfl, rfl, rfl⟩, rfl, .inr ⟨old, new, hold, h.parse_write _, fun hhost => ?_,
            ?_, .inr (Prod.ext husername hpassword)⟩⟩
          · have holdRooted := h.path_rooted old (horigin ▸ hsome) hhost
            have hrooted : Text.startsWith (urls.path new) "/" = true := by
              obtain hscope | ⟨-, hsame⟩ := hpath
              · exact rooted_of_scope hscope
              · rwa [hsame]
            exact (h.origin_rooted new origin hnewOrigin hrooted).symm.trans
              (h.origin_rooted old origin (horigin ▸ hnewOrigin) holdRooted)
          · exact hpath.symm.imp_left And.right
  · cases hlink

theorem validate_ok (h : validate token previous page job = .ok ()) :
    token.utf8ByteSize ≤ 4096 ∧ token ≠ previous ∧ page < job.settings.maxPages := by
  rw [validate] at h
  split at h
  · cases h
  · next hallowed =>
      simp only [Bool.or_eq_true, decide_eq_true_eq, beq_iff_eq, not_or, Nat.not_lt,
        Nat.not_le] at hallowed
      exact ⟨hallowed.1.1, hallowed.1.2, hallowed.2⟩

theorem place_confined (h : urls.Lawful) {path : String}
    (hplace : place urls endpoint job path token = some (.ok next)) :
    endpoint.Same next ∧ Confined urls job endpoint.url next.url := by
  rw [place] at hplace
  split at hplace
  · obtain ⟨hsame, -, hurl⟩ := link_confined h (Option.some.inj hplace)
    exact ⟨hsame, hurl⟩
  · split at hplace
    · obtain ⟨hsame, -, hurl⟩ := query_confined job h (Option.some.inj hplace)
      exact ⟨hsame, hurl⟩
    · obtain ⟨body, -, hnext⟩ := Option.map_eq_some_iff.mp hplace
      cases hnext
      exact ⟨⟨rfl, rfl, rfl⟩, .refl _⟩

theorem nextRecords_ok
    (hnext : nextRecords urls endpoint job payload previous page = .ok (next, token)) :
    validate token previous page job = .ok ()
      ∧ ∃ replacement, query urls endpoint replacement = .ok next := by
  rw [nextRecords] at hnext
  split at hnext
  · dsimp only at hnext
    split at hnext
    · cases hnext
    · next hvalid =>
        obtain ⟨placed, hquery, heq⟩ := exists_of_map_ok hnext
        cases heq
        exact ⟨hvalid, _, hquery⟩
  · cases hnext

/-- The next page is asked for with a token that is short and new, and only before the last
page that is allowed. -/
theorem advance_valid
    (hnext : advance urls endpoint job payload previous page = some (.ok (next, some token))) :
    token.utf8ByteSize ≤ 4096 ∧ token ≠ previous ∧ page < job.settings.maxPages := by
  rw [advance] at hnext
  split at hnext
  · obtain ⟨found, hrecords, heq⟩ := exists_of_map_ok (Option.some.inj hnext)
    cases heq
    exact validate_ok (nextRecords_ok hrecords).1
  · split at hnext
    · cases hnext
    · split at hnext <;> cases hnext
    · split at hnext
      · cases hnext
      · next hvalid =>
          obtain ⟨placed, -, hmap⟩ := Option.map_eq_some_iff.mp hnext
          cases placed with
          | error error => cases hmap
          | ok endpoint' =>
              cases hmap
              exact validate_ok hvalid

/-- Going on to the next page keeps the request where it is. -/
theorem advance_confined (h : urls.Lawful)
    (hnext : advance urls endpoint job payload previous page = some (.ok (next, some token))) :
    endpoint.Same next ∧ Confined urls job endpoint.url next.url := by
  rw [advance] at hnext
  split at hnext
  · obtain ⟨found, hrecords, heq⟩ := exists_of_map_ok (Option.some.inj hnext)
    cases heq
    obtain ⟨-, replacement, hquery⟩ := nextRecords_ok hrecords
    obtain ⟨hsame, -, hurl⟩ := query_confined job h hquery
    exact ⟨hsame, hurl⟩
  · split at hnext
    · cases hnext
    · split at hnext <;> cases hnext
    · split at hnext
      · cases hnext
      · obtain ⟨placed, hplaced, hmap⟩ := Option.map_eq_some_iff.mp hnext
        cases placed with
        | error error => cases hmap
        | ok endpoint' =>
            cases hmap
            exact place_confined h hplaced

/-- A page says that there is more: a cursor, or a flag, of which the first one that can be
read counts. -/
def Continues (payload : Value) : Prop :=
  (∃ path ∈ cursorPaths, ∃ v, payload.pointer path = some v ∧ v ≠ .null ∧ v ≠ .string "")
    ∨ boolean payload ["/IsTruncated"] = some true
    ∨ boolean payload ["/IsTruncated"] = none ∧ boolean payload ["/Truncated"] = some true

theorem cursor_none {paths : List String} (h : cursor payload paths = .ok none) :
    ∀ path ∈ paths, ∀ v, payload.pointer path = some v → v = .null ∨ v = .string "" := by
  induction paths with
  | nil => simp
  | cons path rest ih =>
      rw [cursor] at h
      intro other hmem v hv
      rcases List.mem_cons.mp hmem with rfl | hmem
      · rw [hv] at h
        cases v with
        | null => exact .inl rfl
        | string token =>
            by_cases hempty : token.isEmpty = true
            · exact .inr (by rw [String.isEmpty_iff.mp hempty])
            · simp [hempty] at h
        | bool b => simp at h
        | number text => simp at h
        | array values => simp at h
        | object fields => simp at h
      · refine ih ?_ other hmem v hv
        split at h
        · exact h
        · exact h
        · split at h
          · exact h
          · cases h
        · cases h

theorem boolean_pair (payload : Value) (first second : String) :
    boolean payload [first, second] = (boolean payload [first]).or (boolean payload [second]) := by
  simp only [boolean, List.findSome?_cons, List.findSome?_nil]
  cases (payload.pointer first).bind fun v => v.asBool.or (v.asStr.bind parseBool) <;>
    simp

/-- The last page is one that does not say that there is more. -/
theorem advance_last
    (h : advance urls endpoint job payload previous page = some (.ok (next, none))) :
    next = endpoint ∧ ¬Continues payload := by
  rw [advance] at h
  split at h
  · obtain ⟨found, -, heq⟩ := exists_of_map_ok (Option.some.inj h)
    cases heq
  · split at h
    · cases h
    · next hcursor =>
        split at h
        · cases h
        · next hflags =>
            cases h
            refine ⟨rfl, ?_⟩
            rw [boolean_pair] at hflags
            rintro (⟨path, hpath, v, hv, hnull, hempty⟩ | hfirst | ⟨hfirst, hsecond⟩)
            · obtain rfl | rfl := cursor_none hcursor path hpath v hv
              · exact hnull rfl
              · exact hempty rfl
            · exact hflags (by rw [hfirst]; rfl)
            · exact hflags (by rw [hfirst, hsecond]; rfl)
    · split at h
      · cases h
      · obtain ⟨placed, -, hmap⟩ := Option.map_eq_some_iff.mp h
        cases placed <;> cases hmap

end spec

end HealthMonitor.Providers
