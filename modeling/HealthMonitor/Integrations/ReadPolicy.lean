import HealthMonitor.Library.Percent

/-!
# Read policy

Closed read-only request policy, including documented query POST endpoints. The policy tests
the path and the query as they are written; what a server acts on is what they decode to.
Texts that are not characters, the body and the values of headers, are lists of bytes: a byte
is the character of its number.
-/

namespace HealthMonitor.Integrations.ReadPolicy

open Percent

/-! ## Requests -/

inductive Method where
  | get
  | head
  | post
  | other
  deriving DecidableEq, Repr

/-- A printable character that is none of the marks. -/
def isUrlChar (marks : String) (c : Char) : Bool :=
  decide (33 ≤ c.toNat) && decide (c.toNat ≤ 126) && !marks.toList.contains c

def isQueryChar (c : Char) : Bool := isUrlChar "\"#<>'" c

def isPathChar (c : Char) : Bool := isUrlChar "\"#<>?`\x7b\x7d\\" c

/-- A URL as its parser leaves it. -/
structure Url where
  scheme : String
  host : Option String
  path : String
  query : Option String
  rooted : path.toList.head? = some '/'
  pathChars : path.toList.all isPathChar = true
  queryChars : (query.getD "").toList.all isQueryChar = true
  resolved : Resolved path.toList

structure Request where
  method : Method
  url : Url
  headers : List (String × List Char)
  body : Option (List Char)

/-- `HeaderValue::to_str`. -/
def headerText (value : List Char) : Option String :=
  if value.all fun c => c == '\t' || decide (32 ≤ c.toNat) && decide (c.toNat < 127) then
    some (String.ofList value)
  else none

def header (request : Request) (name : String) : Option String :=
  (request.headers.lookup name).bind headerText

/-! ## Forms -/

/-- A name or a value of a form. -/
def formText (text : List Char) : List Char :=
  decode (text.map fun c => if c = '+' then ' ' else c)

/-- `form_urlencoded::parse`. -/
def formPairs (body : List Char) : List (List Char × List Char) :=
  ((body.splitOn '&').filter fun sequence => !sequence.isEmpty).map fun sequence =>
    match Text.cut ['='] sequence with
    | some (name, value) => (formText name, formText value)
    | none => (formText sequence, [])

def pairs (request : Request) : List (List Char × List Char) :=
  formPairs (request.body.getD [])

def isForm (request : Request) : Bool :=
  header request "content-type" == some "application/x-www-form-urlencoded"

def formReads : List String :=
  ["GetMetricData", "ListMetrics", "DescribeAlarms", "DescribeInstances",
    "DescribeInstanceStatus", "DescribeVolumes", "DescribeAutoScalingGroups",
    "DescribeLoadBalancers", "DescribeTargetGroups", "DescribeTargetHealth",
    "DescribeDBInstances", "DescribeDBClusters", "DescribeCacheClusters",
    "DescribeReplicationGroups", "ListTopics", "GetTopicAttributes", "DescribeRegions",
    "DescribeAccountAttributes"]

/-- Whether an action of a form is one of the reads. -/
def isFormRead (action : List Char) : Bool := formReads.contains (String.ofList action)

/-- The first action of a form. -/
def formAction (request : Request) : List Char :=
  (((pairs request).find? fun pair => pair.1 == "Action".toList).map Prod.snd).getD []

/-! ## The policy -/

/-- `str::to_ascii_lowercase`. -/
def toLowercase (s : String) : String := String.ofList (lower s.toList)

def forbidden : List String :=
  [":access", ":decrypt", "/exec", "/attach", "/proxy", ":pull", ":acknowledge", "/listkeys",
    "/listsecrets"]

/-- What a GET or a HEAD request may read. -/
def readable (path query : String) : Bool :=
  !Text.contains query "alt=media"
    && !(Text.startsWith path "/v2/" && Text.contains path "/blobs/")
    && !Text.contains path "/objects/"
    && (!Text.contains path "/secrets/" || Text.endsWith path "/versions")

def azureHost (host : Option String) : Bool := host == some "management.azure.com"

def registryHost (host : Option String) : Bool := host.any (Text.endsWith · ".azurecr.io")

def signalsHost (host : Option String) : Bool :=
  host.any fun h => Text.startsWith h "application-signals." && Text.endsWith h ".api.aws"

def amazonHost (host : Option String) : Bool := host.any (Text.endsWith · ".amazonaws.com")

def analyticsHost (host : Option String) : Bool := host == some "api.loganalytics.azure.com"

/-- The query endpoints that any POST may go to. -/
def documented (host : Option String) (path : String) : Bool :=
  azureHost host && Text.startsWith path "/subscriptions/"
      && Text.endsWith path "/providers/microsoft.costmanagement/query"
    || registryHost host && ["/oauth2/exchange", "/oauth2/token"].contains path
    || azureHost host
      && Text.contains path "/providers/microsoft.network/applicationgateways/"
      && Text.endsWith path "/backendhealth"
    || signalsHost host && ["/slos", "/budget-report"].contains path
    || amazonHost host
      && (Text.stripPrefix path "/service/graniteserviceversion20100801/operation/").any
        (["getmetricdata", "listmetrics", "describealarms"].contains ·)
    || analyticsHost host && Text.startsWith path "/v1/workspaces/"
      && Text.endsWith path "/query"

/-- The query endpoints that a POST may go to if it is no form. -/
def documentedQuery (path : String) : Bool :=
  path == "/v2/entries:list"
    || Text.endsWith path "/providers/microsoft.resourcegraph/resources"
    || Text.endsWith path "/gethealth"

def targetReads : List String :=
  ["GetCostAndUsage", "ListMetrics", "ListCertificates", "DescribeCertificate",
    "ListSecretVersionIds", "DescribeTable", "DescribeContinuousBackups", "ListTables",
    "DescribeClusters", "DescribeServices", "ListTasks", "DescribeTasks", "ListClusters",
    "ListServices", "ListFunctions", "DescribeLogGroups", "FilterLogEvents", "ListQueues",
    "GetQueueAttributes", "ListRules", "ListEventBuses", "ListEventSourceMappings",
    "DescribeAlarms", "GetMetricData", "ListAccounts", "DescribeOrganization",
    "DescribeRepositories", "ListImages", "DescribeImages", "BatchGetImage", "ListBuilds",
    "BatchGetBuilds", "ListPipelines", "GetPipelineState", "ListPipelineExecutions",
    "ListBackupVaults", "ListRecoveryPointsByBackupVault", "ListKeys", "DescribeKey",
    "ListSecrets", "ListServiceQuotas", "ListServices", "DescribeEvents",
    "DescribeAffectedEntities", "DescribeSubscriptionFilters"]

/-- The action after the last dot of the target header. -/
def targetAction (request : Request) : String :=
  String.ofList ((((header request "x-amz-target").getD "").toList.splitOn '.').getLast?.getD [])

def allowed (request : Request) : Bool :=
  let path := toLowercase request.url.path
  if request.url.scheme != "https" || forbidden.any (Text.contains path ·) then false
  else
    match request.method with
    | .get | .head => readable path (toLowercase (request.url.query.getD ""))
    | .post =>
        if documented request.url.host path then true
        else if isForm request then isFormRead (formAction request)
        else if documentedQuery path then true
        else targetReads.contains (targetAction request)
    | .other => false

/-! ## What a request is -/

/-- The path a server acts on, in lower case. -/
def decodedPath (request : Request) : List Char := lower (decode request.url.path.toList)

/-- The bytes of the query a server acts on. -/
def decodedQuery (request : Request) : List Char := decode (request.url.query.getD "").toList

/-- The two requests differ in the encoding of their paths and queries alone. -/
structure Respelled (request other : Request) : Prop where
  method : other.method = request.method
  scheme : other.url.scheme = request.url.scheme
  host : other.url.host = request.url.host
  path : decode other.url.path.toList = decode request.url.path.toList
  query : (other.url.query.map fun q => decode q.toList)
    = request.url.query.map fun q => decode q.toList
  headers : other.headers = request.headers
  body : other.body = request.body

/-- The path has a word the policy forbids. -/
def Forbids (path : List Char) : Prop := ∃ word ∈ forbidden, word.toList <:+: path

/-- The path and query of an object's media, of a registry's blob or of a secret's value. -/
def Content (path query : List Char) : Prop :=
  "alt=media".toList <:+: query
    ∨ "/v2/".toList <+: path ∧ "/blobs/".toList <:+: path
    ∨ "/objects/".toList <:+: path
    ∨ "/secrets/".toList <:+: path ∧ ¬"/versions".toList <:+ path

/-- The values of the form that are named as actions. -/
def actions (request : Request) : List (List Char) :=
  ((pairs request).filter fun pair => pair.1 == "Action".toList).map Prod.snd

/-- The policy on a request: however it is spelled the answer is the same, and what is
allowed reads nothing that it must not. -/
structure Guarded (request : Request) : Prop where
  invariant : ∀ other, Respelled request other → allowed other = allowed request
  words : allowed request = true → ¬Forbids (decodedPath request)
  content : request.method = .get → allowed request = true →
    ¬Content (decodedPath request) (lower (decodedQuery request))
  actions : request.method = .post → isForm request = true → allowed request = true →
    ∀ action ∈ actions request, isFormRead action = true

/-! ## When the encoding does not matter -/

/-- The path has the word and a segment after it, where the word can be written as it is. -/
def Shows (word : String) (path : List Char) : Prop :=
  ∃ before segment, path = before ++ word.toList ++ '/' :: segment ∧ Apart before ∧ ¬Dots segment

/-- The path is the first word, whatever can be written between, and the last word. -/
def Between (first last : String) (path : List Char) : Prop :=
  ∃ between, path = first.toList ++ between ++ last.toList ∧ Apart between

/-- A blob of a registry. -/
def ShowsBlob (path : List Char) : Prop :=
  ∃ between segment, path = "/v2".toList ++ between ++ "/blobs".toList ++ '/' :: segment
    ∧ Apart between ∧ ¬Dots segment

/-- The health of a gateway's backends. -/
def ShowsGateway (path : List Char) : Prop :=
  ∃ before between, path
      = before ++ "/providers/microsoft.network/applicationgateways".toList ++ between
        ++ "/backendhealth".toList
    ∧ Apart before ∧ Apart between

/-- The query has the parameter that asks for media, or all of it but the first character
after a byte whose escape ends with that character. -/
def ShowsMedia (query : List Char) : Prop :=
  ∃ before byte after, query = before ++ byte :: after ∧ "lt=media".toList <+: lower after
    ∧ (byte = 'a' ∨ byte = 'A' ∨ byte.toNat % 16 = 10)

/-- The path is that of a documented query endpoint, where it can be written as it is. -/
def Documented (host : Option String) (form : Bool) (path : List Char) : Prop :=
  azureHost host = true
      ∧ (Between "/subscriptions" "/providers/microsoft.costmanagement/query" path
        ∨ ShowsGateway path)
    ∨ registryHost host = true
      ∧ (path = "/oauth2/exchange".toList ∨ path = "/oauth2/token".toList)
    ∨ signalsHost host = true ∧ (path = "/slos".toList ∨ path = "/budget-report".toList)
    ∨ amazonHost host = true ∧ (∃ operation ∈ ["getmetricdata", "listmetrics", "describealarms"],
      path = ("/service/graniteserviceversion20100801/operation/" ++ operation).toList)
    ∨ analyticsHost host = true ∧ Between "/v1/workspaces" "/query" path
    ∨ form = false ∧ (path = "/v2/entries:list".toList
      ∨ Between "" "/providers/microsoft.resourcegraph/resources" path
      ∨ Between "" "/gethealth" path)

/-- The body or the headers of a POST name a read. -/
def namesRead (request : Request) : Bool :=
  if isForm request then isFormRead (formAction request)
  else targetReads.contains (targetAction request)

/-- The condition under which the policy is that of what the request decodes to. -/
def Plain (request : Request) : Prop :=
  request.url.scheme = "https" →
    match request.method with
    | .get => ¬Forbids (decodedPath request)
        ∧ ¬Content (decodedPath request) (lower (decodedQuery request))
        ∧ ¬ShowsMedia (decodedQuery request) ∧ ¬Shows "/secrets" (decodedPath request)
    | .head => ¬Forbids (decodedPath request)
        ∧ ¬ShowsMedia (decodedQuery request) ∧ ¬Shows "/objects" (decodedPath request)
        ∧ ¬ShowsBlob (decodedPath request) ∧ ¬Shows "/secrets" (decodedPath request)
    | .post =>
        if namesRead request then ¬Forbids (decodedPath request)
          ∧ (isForm request = true → ∀ action ∈ actions request, isFormRead action = true)
        else ¬Documented request.url.host (isForm request) (decodedPath request)
    | .other => True

/-! ## Words -/

/-- The words of the policy that a segment may not start with, after the slash. -/
def starts : List (List Char) :=
  ["exec", "attach", "proxy", "listkeys", "listsecrets"].map String.toList

/-- The words of the policy that a segment may not have in it. -/
def inner : List (List Char) :=
  [":access", ":decrypt", ":pull", ":acknowledge"].map String.toList

/-- No segment of the path has a forbidden word. -/
def Harmless (path : List Char) : Prop :=
  ∀ segment ∈ path.splitOn '/', (∀ g ∈ starts, ¬g <+: segment) ∧ ∀ g ∈ inner, ¬g <:+: segment

instance (path : List Char) : Decidable (Harmless path) :=
  inferInstanceAs (Decidable (∀ segment ∈ path.splitOn '/',
    (∀ g ∈ starts, ¬g <+: segment) ∧ ∀ g ∈ inner, ¬g <:+: segment))

/-- What the words that stand for whole segments have in common. -/
structure Word (w : List Char) : Prop where
  head : w.head? = some '/'
  plain : '%' ∉ w
  low : lower w = w
  chars : w.all isPathChar = true
  resolved : Resolved w
  harmless : Harmless w

instance (w : List Char) : Decidable (Word w) :=
  decidable_of_iff (w.head? = some '/' ∧ '%' ∉ w ∧ lower w = w ∧ w.all isPathChar = true
      ∧ Resolved w ∧ Harmless w)
    ⟨fun ⟨h, p, l, c, r, f⟩ => ⟨h, p, l, c, r, f⟩, fun ⟨h, p, l, c, r, f⟩ => ⟨h, p, l, c, r, f⟩⟩

theorem head_splitOn {g : List Char} (hg : '/' ∉ g) (s : List Char) :
    ∃ segment rest, (g ++ s).splitOn '/' = segment :: rest ∧ g <+: segment := by
  induction g with
  | nil =>
    obtain ⟨segment, rest, h⟩ := List.exists_cons_of_ne_nil (List.splitOn_ne_nil '/' s)
    exact ⟨segment, rest, h, List.nil_prefix⟩
  | cons c g ih =>
    rw [List.mem_cons, not_or] at hg
    have hc : c ≠ '/' := fun heq => hg.1 heq.symm
    obtain ⟨segment, rest, h, hprefix⟩ := ih hg.2
    refine ⟨c :: segment, rest, ?_, List.cons_prefix_cons.mpr ⟨rfl, hprefix⟩⟩
    rw [List.cons_append, List.splitOn_cons_eq_if_modifyHead, if_neg (by simpa using hc), h]
    rfl

/-- A word without a slash lies in one segment. -/
theorem infix_segment {g : List Char} (hg : '/' ∉ g) (p s : List Char) :
    ∃ segment ∈ (p ++ g ++ s).splitOn '/', g <:+: segment := by
  induction p with
  | nil =>
    obtain ⟨segment, rest, h, hprefix⟩ := head_splitOn hg s
    exact ⟨segment, by rw [List.nil_append, h]; exact List.mem_cons_self, hprefix.isInfix⟩
  | cons c p ih =>
    obtain ⟨segment, hsegment, hinside⟩ := ih
    rw [List.cons_append, List.cons_append, List.splitOn_cons_eq_if_modifyHead]
    split
    · exact ⟨segment, List.mem_cons_of_mem _ hsegment, hinside⟩
    · cases hsplit : (p ++ g ++ s).splitOn '/' with
      | nil => exact absurd hsplit (List.splitOn_ne_nil '/' _)
      | cons first rest =>
        rw [hsplit] at hsegment
        obtain rfl | hsegment := List.mem_cons.mp hsegment
        · exact ⟨c :: segment, List.mem_cons_self, hinside.trans (List.suffix_cons c _).isInfix⟩
        · exact ⟨segment, List.mem_cons_of_mem _ hsegment, hinside⟩

theorem slash_notMem_starts : ∀ g ∈ starts, '/' ∉ g := by decide

theorem slash_notMem_inner : ∀ g ∈ inner, '/' ∉ g := by decide

/-- Every forbidden word starts a segment or lies in one. -/
theorem forbidden_cases : ∀ word ∈ forbidden,
    (∃ g ∈ starts, word.toList = '/' :: g) ∨ word.toList ∈ inner := by
  decide

theorem Harmless.not_forbids {path : List Char} (h : Harmless path) : ¬Forbids path := by
  rintro ⟨word, hword, p, s, rfl⟩
  obtain ⟨g, hg, heq⟩ | hinner := forbidden_cases word hword
  · obtain ⟨segment, rest, hsplit, hprefix⟩ := head_splitOn (slash_notMem_starts g hg) s
    rw [heq, List.append_assoc, List.cons_append] at h
    refine (h segment ?_).1 g hg hprefix
    rw [List.splitOn_append_cons_self, hsplit]
    simp
  · obtain ⟨segment, hsegment, hinside⟩ := infix_segment (slash_notMem_inner _ hinner) p s
    exact (h segment hsegment).2 _ hinner hinside

theorem harmless_append {x y : List Char} (hy : y = [] ∨ y.head? = some '/')
    (hx : Harmless x) (h : Harmless y) : Harmless (x ++ y) := by
  obtain rfl | hy := hy
  · rwa [List.append_nil]
  · obtain ⟨y, rfl⟩ := List.head?_eq_some_iff.mp hy
    intro segment hsegment
    rw [List.splitOn_append_cons_self, List.mem_append] at hsegment
    obtain hsegment | hsegment := hsegment
    · exact hx segment hsegment
    · refine h segment ?_
      have hsplit : ([] ++ '/' :: y).splitOn '/' = [].splitOn '/' ++ y.splitOn '/' :=
        List.splitOn_append_cons_self ..
      rw [List.nil_append] at hsplit
      rw [hsplit]
      exact List.mem_append_right _ hsegment

/-! ## Spellings -/

/-- A character that hidden text does not have. -/
def IsForeign (c : Char) : Prop := c ≠ '/' ∧ c ≠ '%' ∧ ∀ n < 16, c ≠ Nat.digitChar n

instance (c : Char) : Decidable (IsForeign c) :=
  inferInstanceAs (Decidable (c ≠ '/' ∧ c ≠ '%' ∧ ∀ n < 16, c ≠ Nat.digitChar n))

def HasForeign (text : List Char) : Prop := text.any (fun c => decide (IsForeign c)) = true

instance (text : List Char) : Decidable (HasForeign text) :=
  inferInstanceAs (Decidable (_ = true))

theorem HasForeign.exists {text : List Char} (h : HasForeign text) : ∃ c ∈ text, IsForeign c := by
  obtain ⟨c, hc, hforeign⟩ := List.any_eq_true.mp h
  exact ⟨c, hc, of_decide_eq_true hforeign⟩

theorem isUrlChar_of_toLower {marks : String}
    (hmarks : marks.toList.all (fun d => decide (d.toNat < 65) || decide (90 < d.toNat)) = true)
    {c : Char} (h : isUrlChar marks c.toLower = true) : isUrlChar marks c = true := by
  by_cases hupper : 65 ≤ c.toNat ∧ c.toNat ≤ 90
  · simp only [isUrlChar, Bool.and_eq_true, decide_eq_true_eq, Bool.not_eq_true',
      List.contains_eq_mem, decide_eq_false_iff_not]
    refine ⟨⟨by omega, by omega⟩, fun hmem => ?_⟩
    have hmark := List.all_eq_true.mp hmarks c hmem
    simp only [Bool.or_eq_true, decide_eq_true_eq] at hmark
    omega
  · have hsame : c.toLower = c := by
      rw [← Char.toNat_inj, Padding.toNat_toLower, if_neg hupper]
    rwa [hsame] at h

theorem isUrlChar_bounds {marks : String} {c : Char} (h : isUrlChar marks c = true) :
    c.toNat < 256 := by
  simp only [isUrlChar, Bool.and_eq_true, decide_eq_true_eq] at h
  omega

theorem isPathChar_digitChar : ∀ n < 16, isPathChar (Nat.digitChar n) = true := by decide

theorem isQueryChar_digitChar : ∀ n < 16, isQueryChar (Nat.digitChar n) = true := by decide

theorem isQueryChar_encode {x : List Char} (hx : ∀ b ∈ x, b.toNat < 256) {c : Char}
    (h : c ∈ encode x) : isQueryChar c = true := by
  obtain rfl | ⟨n, hn, rfl⟩ := mem_encode hx h
  · decide
  · exact isQueryChar_digitChar n hn

/-- A text that can stand in a path for the bytes, whatever comes after it. -/
structure Spelling (bytes text : List Char) : Prop where
  decoded : ∀ rest, decode (text ++ rest) = bytes ++ decode rest
  start : text = [] ∨ text.head? = some '/'
  resolved : Resolved text
  chars : ∀ c ∈ text, isPathChar c = true
  harmless : Harmless (lower text)

theorem Spelling.nil : Spelling [] [] where
  decoded _ := rfl
  start := Or.inl rfl
  resolved := resolved_nil
  chars _ h := absurd h List.not_mem_nil
  harmless := by decide

theorem Spelling.append {b b' t t' : List Char} (h : Spelling b t) (h' : Spelling b' t') :
    Spelling (b ++ b') (t ++ t') where
  decoded rest := by
    rw [List.append_assoc, h.decoded, h'.decoded, List.append_assoc]
  start := by
    obtain rfl | hstart := h.start
    · exact h'.start
    · exact Or.inr (by rw [List.head?_append, hstart]; rfl)
  resolved := by
    obtain rfl | hstart := h'.start
    · rw [List.append_nil]
      exact h.resolved
    · obtain ⟨t', rfl⟩ := List.head?_eq_some_iff.mp hstart
      exact resolved_append.mpr ⟨h.resolved, resolved_slash.mp h'.resolved⟩
  chars c hc := (List.mem_append.mp hc).elim (h.chars c) (h'.chars c)
  harmless := by
    rw [lower_append]
    refine harmless_append ?_ h.harmless h'.harmless
    obtain rfl | hstart := h'.start
    · exact Or.inl rfl
    · obtain ⟨t', rfl⟩ := List.head?_eq_some_iff.mp hstart
      exact Or.inr rfl

/-- A word stands for itself, in any case. -/
theorem Spelling.word {v w : List Char} (hw : Word w) (h : lower v = w) : Spelling v v where
  decoded := by
    refine decode_plain_append ?_
    rw [← mem_lower (by decide) (by decide), h]
    exact hw.plain
  start := by
    subst h
    obtain ⟨t, ht⟩ := List.head?_eq_some_iff.mp hw.head
    obtain ⟨c, v, rfl, hc, -⟩ := List.map_eq_cons_iff.mp ht
    rw [(Padding.toLower_eq_iff (by decide) (by decide)).mp hc]
    exact Or.inr rfl
  resolved := resolved_lower.mp (h ▸ hw.resolved)
  chars c hc := by
    refine isUrlChar_of_toLower (by decide) (List.all_eq_true.mp hw.chars _ ?_)
    rw [← h]
    exact List.mem_map_of_mem hc
  harmless := h ▸ hw.harmless

theorem lower_veil {x : List Char} (hbytes : ∀ b ∈ x, b.toNat < 256) (hx : Apart x) :
    lower (veil x) = veil x := by
  obtain rfl | ⟨segment, rfl, -⟩ := hx
  · rfl
  · rw [veil, lower_cons, lower_encode fun b hb => hbytes b (List.mem_cons_of_mem _ hb)]
    rfl

theorem Spelling.veil {x : List Char} (hbytes : ∀ b ∈ x, b.toNat < 256) (hx : Apart x) :
    Spelling x (veil x) where
  decoded := decode_veil_append hbytes hx
  start := by
    obtain rfl | ⟨segment, rfl, -⟩ := hx
    · exact Or.inl rfl
    · exact Or.inr rfl
  resolved := resolved_veil hbytes hx
  chars c hc := by
    obtain rfl | rfl | ⟨n, hn, rfl⟩ := mem_veil hbytes hx hc
    · decide
    · decide
    · exact isPathChar_digitChar n hn
  harmless := by
    rw [lower_veil hbytes hx]
    obtain rfl | ⟨segment, rfl, -⟩ := hx
    · decide
    · have hrest : ∀ b ∈ segment, b.toNat < 256 :=
        fun b hb => hbytes b (List.mem_cons_of_mem _ hb)
      have hforeign : ∀ g, HasForeign g → ¬g <:+: encode segment := by
        intro g hg hinside
        obtain ⟨c, hc, -, hpercent, hdigit⟩ := hg.exists
        obtain rfl | ⟨n, hn, rfl⟩ := mem_encode hrest (hinside.subset hc)
        · exact hpercent rfl
        · exact hdigit n hn rfl
      have hstarts : ∀ g ∈ starts, HasForeign g := by decide
      have hinner : ∀ g ∈ inner, HasForeign g := by decide
      have hsplit : ([] ++ '/' :: encode segment).splitOn '/' = [[]] ++ [encode segment] := by
        rw [List.splitOn_append_cons_self, Text.splitOn_single (slash_notMem_encode hrest)]
        rfl
      intro s hs
      rw [Percent.veil, ← List.nil_append ('/' :: _), hsplit] at hs
      obtain rfl | rfl : s = [] ∨ s = encode segment := by
        simpa using hs
      · decide
      · exact ⟨fun g hg hprefix => hforeign g (hstarts g hg) hprefix.isInfix,
          fun g hg => hforeign g (hinner g hg)⟩

/-! ## Other spellings of a request -/

section

variable {request : Request}

theorem pathBytes (request : Request) :
    ∀ b ∈ decode request.url.path.toList, b.toNat < 256 := by
  exact decode_bytes fun c hc => isUrlChar_bounds (List.all_eq_true.mp request.url.pathChars c hc)

theorem queryBytes (request : Request) : ∀ b ∈ decodedQuery request, b.toNat < 256 := by
  exact decode_bytes fun c hc =>
    isUrlChar_bounds (List.all_eq_true.mp request.url.queryChars c hc)

/-- The decoded path is a slash and what can be one segment. -/
theorem apart_path (request : Request) :
    ∃ segment, decode request.url.path.toList = '/' :: segment ∧ ¬Dots segment := by
  obtain ⟨rest, hrest⟩ := List.head?_eq_some_iff.mp request.url.rooted
  have hresolved := request.url.resolved
  rw [hrest] at hresolved ⊢
  exact ⟨decode rest, decode_cons_of_ne (by decide) rest, (resolved_slash.mp hresolved).not_dots⟩

theorem exists_respelled {text : List Char}
    (h : Spelling (decode request.url.path.toList) text) {q : Option (List Char)}
    (hquery : q.map decode = request.url.query.map fun q => decode q.toList)
    (hchars : ∀ c ∈ q.getD [], isQueryChar c = true) :
    ∃ other, Respelled request other ∧ other.url.path = String.ofList text
      ∧ other.url.query = q.map String.ofList := by
  have hdecode : decode text = decode request.url.path.toList := by
    have hspell := h.decoded []
    rwa [List.append_nil, decode_nil, List.append_nil] at hspell
  have hroot : text.head? = some '/' := by
    obtain rfl | hstart := h.start
    · obtain ⟨segment, hsegment, -⟩ := apart_path request
      rw [hsegment] at hdecode
      cases hdecode
    · exact hstart
  let url : Url := {
    scheme := request.url.scheme
    host := request.url.host
    path := String.ofList text
    query := q.map String.ofList
    rooted := by rw [String.toList_ofList]; exact hroot
    pathChars := by rw [String.toList_ofList]; exact List.all_eq_true.mpr h.chars
    queryChars := by
      refine List.all_eq_true.mpr fun c hc => hchars c ?_
      cases q with
      | none => simp at hc
      | some text => simpa using hc
    resolved := by rw [String.toList_ofList]; exact h.resolved }
  refine ⟨{ request with url }, ⟨rfl, rfl, rfl, ?_, ?_, rfl, rfl⟩, rfl, rfl⟩
  · show decode (String.ofList text).toList = _
    rw [String.toList_ofList, hdecode]
  · show ((q.map String.ofList).map fun q => decode q.toList) = _
    rw [← hquery, Option.map_map]
    refine congrArg (Option.map · q) (funext fun text => ?_)
    show decode (String.ofList text).toList = decode text
    rw [String.toList_ofList]

/-- The query as it is asked, spelled as it is. -/
theorem query_self (request : Request) :
    ((request.url.query.map String.toList).map decode)
        = (request.url.query.map fun q => decode q.toList)
      ∧ ∀ c ∈ (request.url.query.map String.toList).getD [], isQueryChar c = true := by
  refine ⟨Option.map_map .., fun c hc => List.all_eq_true.mp request.url.queryChars c ?_⟩
  cases hquery : request.url.query with
  | none => simp [hquery] at hc
  | some q => simpa [hquery] using hc

/-- A spelling of the path makes a request with the query as it is asked. -/
theorem exists_with_path {text : List Char}
    (h : Spelling (decode request.url.path.toList) text) :
    ∃ other, Respelled request other ∧ other.url.path = String.ofList text
      ∧ other.url.query = request.url.query := by
  obtain ⟨other, hother, hpath, hquery⟩ :=
    exists_respelled h (query_self request).1 (query_self request).2
  refine ⟨other, hother, hpath, hquery.trans ?_⟩
  cases request.url.query with
  | none => rfl
  | some q =>
    show some (String.ofList q.toList) = some q
    rw [String.ofList_toList]

end

/-! ## The answers -/

@[simp] theorem toList_toLowercase (s : String) : (toLowercase s).toList = lower s.toList :=
  String.toList_ofList

theorem forbids_iff (path : String) :
    forbidden.any (Text.contains (toLowercase path) ·) = true ↔ Forbids (lower path.toList) := by
  rw [List.any_eq_true]
  refine exists_congr fun word => and_congr_right fun _ => ?_
  rw [Text.contains_iff, toList_toLowercase]

section

variable {request : Request}

theorem allowed_of_scheme (h : request.url.scheme ≠ "https") : allowed request = false := by
  rw [allowed, if_pos]
  rw [Bool.or_eq_true, bne_iff_ne]
  exact Or.inl h

theorem allowed_of_forbids (h : Forbids (lower request.url.path.toList)) :
    allowed request = false := by
  rw [allowed, if_pos]
  rw [Bool.or_eq_true]
  exact Or.inr ((forbids_iff _).mpr h)

theorem allowed_of_other (h : request.method = .other) : allowed request = false := by
  rw [allowed, h]
  split <;> rfl

section

variable (hscheme : request.url.scheme = "https")
  (hwords : ¬Forbids (lower request.url.path.toList))

include hscheme hwords

theorem reached : ¬(request.url.scheme != "https"
    || forbidden.any (Text.contains (toLowercase request.url.path) ·)) = true := by
  rw [Bool.or_eq_true, bne_iff_ne, forbids_iff, not_or, not_ne_iff]
  exact ⟨hscheme, hwords⟩

theorem allowed_read (h : request.method = .get ∨ request.method = .head) :
    allowed request = readable (toLowercase request.url.path)
      (toLowercase (request.url.query.getD "")) := by
  rw [allowed, if_neg (reached hscheme hwords)]
  obtain h | h := h <;> rw [h]

theorem allowed_post (h : request.method = .post) :
    allowed request = (documented request.url.host (toLowercase request.url.path)
      || !isForm request && documentedQuery (toLowercase request.url.path)
      || namesRead request) := by
  rw [allowed, if_neg (reached hscheme hwords), h, namesRead]
  cases documented request.url.host (toLowercase request.url.path)
  · cases isForm request
    · cases documentedQuery (toLowercase request.url.path) <;> rfl
    · rfl
  · rfl

end

end

/-! ## Hidden requests -/

/-- No word of the policy can be read in the request as it is written. -/
structure Hidden (request : Request) : Prop where
  path : ∀ c ∈ (toLowercase request.url.path).toList, ¬IsForeign c
  query : ∀ c ∈ (toLowercase (request.url.query.getD "")).toList, ¬IsForeign c

theorem not_foreign_of_mem_veil {x : List Char} (hbytes : ∀ b ∈ x, b.toNat < 256)
    (hx : Apart x) {c : Char} (h : c ∈ veil x) : ¬IsForeign c := by
  rintro ⟨hslash, hpercent, hdigit⟩
  obtain rfl | rfl | ⟨n, hn, rfl⟩ := mem_veil hbytes hx h
  · exact hslash rfl
  · exact hpercent rfl
  · exact hdigit n hn rfl

theorem not_foreign_of_mem_encode {x : List Char} (hbytes : ∀ b ∈ x, b.toNat < 256)
    {c : Char} (h : c ∈ encode x) : ¬IsForeign c := by
  rintro ⟨-, hpercent, hdigit⟩
  obtain rfl | ⟨n, hn, rfl⟩ := mem_encode hbytes h
  · exact hpercent rfl
  · exact hdigit n hn rfl

/-- Every request can be spelled so that no word can be read in it. -/
theorem exists_hidden (request : Request) :
    ∃ other, Respelled request other ∧ Hidden other := by
  obtain ⟨segment, hsegment, hdots⟩ := apart_path request
  have hbytes := pathBytes request
  have hapart : Apart (decode request.url.path.toList) := Or.inr ⟨segment, hsegment, hdots⟩
  have hquery := queryBytes request
  have hone : ∀ q ∈ request.url.query, ∀ b ∈ decode q.toList, b.toNat < 256 := by
    intro q hq
    rw [decodedQuery, hq] at hquery
    exact hquery
  obtain ⟨other, hother, hpath, hasked⟩ :=
    exists_respelled (Spelling.veil hbytes hapart)
      (q := request.url.query.map fun q => encode (decode q.toList)) (by
        rw [Option.map_map]
        refine Option.map_congr fun q hq => ?_
        exact decode_encode (hone q hq)) (by
        intro c hc
        cases hq : request.url.query with
        | none => simp [hq] at hc
        | some q =>
          rw [hq] at hc
          exact isQueryChar_encode (hone q hq) hc)
  refine ⟨other, hother, fun c hc => ?_, fun c hc => ?_⟩
  · rw [hpath, toList_toLowercase, String.toList_ofList, lower_veil hbytes hapart] at hc
    exact not_foreign_of_mem_veil hbytes hapart hc
  · rw [hasked, toList_toLowercase] at hc
    cases hq : request.url.query with
    | none => simp [hq] at hc
    | some q =>
      rw [hq] at hc
      change c ∈ lower (String.ofList (encode (decode q.toList))).toList at hc
      rw [String.toList_ofList, lower_encode (hone q hq)] at hc
      exact not_foreign_of_mem_encode (hone q hq) hc

section

variable {s : String} (h : ∀ c ∈ s.toList, ¬IsForeign c) {w : String}
  (hw : HasForeign w.toList)

include h hw

theorem contains_hidden : Text.contains s w = false := by
  refine Bool.eq_false_iff.mpr fun hcontains => ?_
  obtain ⟨c, hc, hforeign⟩ := hw.exists
  exact h c ((Text.contains_iff.mp hcontains).subset hc) hforeign

theorem startsWith_hidden : Text.startsWith s w = false := by
  refine Bool.eq_false_iff.mpr fun hstarts => ?_
  obtain ⟨c, hc, hforeign⟩ := hw.exists
  exact h c ((List.isPrefixOf_iff_prefix.mp hstarts).subset hc) hforeign

theorem endsWith_hidden : Text.endsWith s w = false := by
  refine Bool.eq_false_iff.mpr fun hends => ?_
  obtain ⟨c, hc, hforeign⟩ := hw.exists
  exact h c ((List.isSuffixOf_iff_suffix.mp hends).subset hc) hforeign

theorem beq_hidden : (s == w) = false := by
  refine beq_false_of_ne fun heq => ?_
  obtain ⟨c, hc, hforeign⟩ := hw.exists
  exact h c (heq ▸ hc) hforeign

end

namespace Hidden

variable {request : Request} (h : Hidden request)

include h

theorem not_forbids : ¬Forbids (lower request.url.path.toList) := by
  rw [← forbids_iff, List.any_eq_true]
  rintro ⟨word, hword, hcontains⟩
  have hforeign : ∀ word ∈ forbidden, HasForeign word.toList := by decide
  rw [contains_hidden h.path (hforeign word hword)] at hcontains
  cases hcontains

theorem readable : ReadPolicy.readable (toLowercase request.url.path)
    (toLowercase (request.url.query.getD "")) = true := by
  rw [ReadPolicy.readable, contains_hidden h.query (by decide),
    startsWith_hidden h.path (w := "/v2/") (by decide),
    contains_hidden h.path (w := "/objects/") (by decide),
    contains_hidden h.path (w := "/secrets/") (by decide)]
  rfl

theorem documented : ReadPolicy.documented request.url.host (toLowercase request.url.path)
    = false := by
  have hpair : ∀ a b : String, HasForeign a.toList → HasForeign b.toList →
      [a, b].contains (toLowercase request.url.path) = false := by
    intro a b ha hb
    rw [List.contains_cons, List.contains_cons, beq_hidden h.path ha, beq_hidden h.path hb]
    rfl
  have hstrip : Text.stripPrefix (toLowercase request.url.path)
      "/service/graniteserviceversion20100801/operation/" = none := by
    rw [Text.stripPrefix, startsWith_hidden h.path (by decide)]
    rfl
  rw [ReadPolicy.documented, startsWith_hidden h.path (w := "/subscriptions/") (by decide),
    contains_hidden h.path (w := "/providers/microsoft.network/applicationgateways/")
      (by decide),
    startsWith_hidden h.path (w := "/v1/workspaces/") (by decide), hstrip,
    hpair _ _ (by decide) (by decide), hpair _ _ (by decide) (by decide)]
  simp only [Bool.and_false, Bool.false_and, Option.any_none, Bool.or_false]

theorem documentedQuery : ReadPolicy.documentedQuery (toLowercase request.url.path) = false := by
  rw [ReadPolicy.documentedQuery, beq_hidden h.path (by decide),
    endsWith_hidden h.path (by decide), endsWith_hidden h.path (by decide)]
  rfl

end Hidden

/-! ## From what is written to what it decodes to -/

section

variable {p w y : List Char}

theorem lower_decode_word (hw : Word w) :
    lower (decode (p ++ w ++ y)) = lower (decode p) ++ w ++ lower (decode y) := by
  rw [decode_around hw.plain hw.head (by decide), lower_append, lower_append, hw.low]

theorem Word.exists_cons (hw : Word w) : ∃ v, w = '/' :: v :=
  List.head?_eq_some_iff.mp hw.head

/-- What is left of a resolved path behind a cut before a slash. -/
theorem resolved_tail (hy : y.head? = some '/') (h : Resolved (p ++ y)) : Resolved y := by
  obtain ⟨y, rfl⟩ := List.head?_eq_some_iff.mp hy
  exact resolved_slash.mpr (resolved_append.mp h).2

/-- What comes before a word, read in lower case. -/
theorem apart_before (hw : Word w) (hp : ∀ c ∈ p.head?, c = '/')
    (h : Resolved (p ++ w ++ y)) : Apart (lower (decode p)) := by
  obtain ⟨v, rfl⟩ := hw.exists_cons
  rw [List.append_assoc, List.cons_append] at h
  exact apart_lower.mpr (apart_decode hp h)

theorem head_eq_slash {t : List Char} (hroot : t.head? = some '/') (h : t = p ++ y) :
    ∀ c ∈ p.head?, c = '/' := by
  intro c hc
  rw [h, List.head?_append, hc] at hroot
  exact Option.some.inj hroot

end

section

variable {t : List Char} (hroot : t.head? = some '/') (hresolved : Resolved t) {w : List Char}
  (hw : Word w)

include hroot hresolved hw

theorem shows_of_infix (h : w ++ ['/'] <:+: t) :
    ∃ before segment, lower (decode t) = before ++ w ++ '/' :: segment
      ∧ Apart before ∧ ¬Dots segment := by
  obtain ⟨p, s, rfl⟩ := h
  have hcut : p ++ (w ++ ['/']) ++ s = p ++ w ++ '/' :: s := by
    simp
  rw [hcut] at hroot hresolved ⊢
  refine ⟨lower (decode p), lower (decode s), ?_, apart_before hw ?_ hresolved, ?_⟩
  · rw [lower_decode_word hw, decode_cons_of_ne (by decide)]
    rfl
  · exact head_eq_slash hroot (List.append_assoc ..)
  · exact dots_lower.not.mpr (resolved_append.mp hresolved).2.not_dots

theorem ends_of_suffix (h : w <:+ t) :
    ∃ before, lower (decode t) = before ++ w ∧ Apart before := by
  obtain ⟨p, rfl⟩ := h
  refine ⟨lower (decode p), ?_, apart_before (y := []) hw (head_eq_slash hroot rfl) ?_⟩
  · have hword := lower_decode_word (p := p) (y := []) hw
    rwa [List.append_nil, decode_nil, lower_nil, List.append_nil] at hword
  · rwa [List.append_nil]

end

/-- No tail of the first word and its slash starts as the second word does. -/
def Separate (first last : List Char) : Prop :=
  2 ≤ last.length ∧ ∀ c ∈ (first ++ ['/']).tails, c.take 2 ≠ last.take 2

instance (first last : List Char) : Decidable (Separate first last) :=
  inferInstanceAs (Decidable (_ ∧ ∀ c ∈ (first ++ ['/']).tails, c.take 2 ≠ last.take 2))

section

variable {first last a p s : List Char} (hseparate : Separate first last)
  (h : first ++ '/' :: a = p ++ (last ++ s))

include hseparate h

/-- The second word starts with the slash after the first word, or later. -/
theorem exists_between : ∃ x, (∀ c ∈ x.head?, c = '/') ∧ p = first ++ x := by
  obtain ⟨x, hp, hx⟩ | ⟨c, hfirst, hc⟩ := List.append_eq_append_iff.mp h
  · exact ⟨x, head_eq_slash rfl hx, hp⟩
  · cases c with
    | nil => exact ⟨[], nofun, by rw [hfirst, List.append_nil, List.append_nil]⟩
    | cons d c =>
      refine absurd ?_ (hseparate.2 (d :: c ++ ['/']) ?_)
      · have htake := congrArg (List.take 2) hc
        rw [List.take_append_of_le_length hseparate.1] at htake
        have hlong : (d :: c ++ '/' :: a).take 2 = (d :: c ++ ['/']).take 2 := by
          rw [show d :: c ++ '/' :: a = (d :: c ++ ['/']) ++ a by simp]
          exact List.take_append_of_le_length (by simp)
        exact hlong.symm.trans htake.symm
      · rw [List.mem_tails, hfirst, List.append_assoc]
        exact List.suffix_append _ _

end

/-- A path that starts with the first word and has the second one behind it. -/
theorem lower_decode_between {first last x y : List Char} (hfirst : Word first)
    (hlast : Word last) (hx : ∀ c ∈ x.head?, c = '/')
    (hresolved : Resolved (first ++ x ++ last ++ y)) :
    lower (decode (first ++ x ++ last ++ y))
        = first ++ lower (decode x) ++ last ++ lower (decode y)
      ∧ Apart (lower (decode x)) := by
  rw [List.append_assoc, List.append_assoc, ← List.append_assoc x] at hresolved ⊢
  constructor
  · rw [decode_plain_append hfirst.plain, lower_append, hfirst.low, lower_decode_word hlast]
    simp only [List.append_assoc]
  · refine apart_before hlast hx (resolved_tail ?_ hresolved)
    obtain ⟨v, rfl⟩ := hlast.exists_cons
    cases x with
    | nil => rfl
    | cons c x =>
      rw [hx c rfl]
      rfl

/-- A path that has the first word and a slash in it and ends with the second word. -/
theorem shows_between {first last t : List Char} (hfirst : Word first) (hlast : Word last)
    (hseparate : Separate first last) (hlength : last.length < first.length)
    (hroot : t.head? = some '/') (hresolved : Resolved t) (hinside : first ++ ['/'] <:+: t)
    (hends : last <:+ t) :
    ∃ before between, lower (decode t) = before ++ first ++ between ++ last
      ∧ Apart before ∧ Apart between := by
  obtain ⟨p, a, hp⟩ := hinside
  obtain ⟨q, rfl⟩ := hends
  have hcut : p ++ (first ++ '/' :: a) = q ++ last := by
    rw [← hp]
    simp
  obtain ⟨e, rfl, he⟩ | ⟨c, rfl, hc⟩ := List.append_eq_append_iff.mp hcut
  · obtain ⟨x, hx, rfl⟩ := exists_between (s := []) hseparate (by rw [he, List.append_nil])
    have htext : p ++ (first ++ x) ++ last = p ++ first ++ (x ++ last) := by
      simp only [List.append_assoc]
    rw [htext] at hresolved hroot ⊢
    have hp : ∀ c ∈ p.head?, c = '/' := head_eq_slash hroot (List.append_assoc ..)
    rw [← List.append_nil (x ++ last)] at hresolved ⊢
    have hbehind : Resolved (x ++ last ++ []) := by
      refine resolved_tail ?_ hresolved
      obtain ⟨v, rfl⟩ := hlast.exists_cons
      cases x with
      | nil => rfl
      | cons c x =>
        rw [hx c rfl]
        rfl
    refine ⟨lower (decode p), lower (decode x), ?_, apart_before hfirst hp hresolved,
      apart_before hlast hx hbehind⟩
    rw [lower_decode_word hfirst, lower_decode_word hlast, decode_nil, lower_nil,
      List.append_nil]
    simp only [List.append_assoc]
  · -- the second word would have the first one in it
    have hle := congrArg List.length hc
    simp only [List.length_append, List.length_cons] at hle
    omega

section

variable {request : Request}

theorem toLowercase_head (request : Request) :
    (toLowercase request.url.path).toList.head? = some '/' := by
  obtain ⟨rest, hrest⟩ := List.head?_eq_some_iff.mp request.url.rooted
  rw [toList_toLowercase, hrest]
  rfl

theorem toLowercase_resolved (request : Request) :
    Resolved (toLowercase request.url.path).toList := by
  rw [toList_toLowercase]
  exact resolved_lower.mpr request.url.resolved

theorem decodedPath_eq (request : Request) :
    decodedPath request = lower (decode (toLowercase request.url.path).toList) := by
  rw [toList_toLowercase, lower_decode_lower]
  rfl

theorem shows_of_contains {w : String} (hw : Word w.toList)
    (h : Text.contains (toLowercase request.url.path) (w ++ "/") = true) :
    Shows w (decodedPath request) := by
  rw [decodedPath_eq]
  refine shows_of_infix (toLowercase_head request) (toLowercase_resolved request) hw ?_
  have hinside := Text.contains_iff.mp h
  rwa [String.toList_append] at hinside

theorem between_of_tests {first last : String} (hfirst : Word first.toList)
    (hlast : Word last.toList) (hseparate : Separate first.toList last.toList)
    (hstarts : Text.startsWith (toLowercase request.url.path) (first ++ "/") = true)
    (hends : Text.endsWith (toLowercase request.url.path) last = true) :
    Between first last (decodedPath request) := by
  obtain ⟨a, ha⟩ := List.isPrefixOf_iff_prefix.mp hstarts
  obtain ⟨p, hp⟩ := List.isSuffixOf_iff_suffix.mp hends
  rw [String.toList_append, List.append_assoc] at ha
  have hboth : first.toList ++ '/' :: a = p ++ (last.toList ++ []) := by
    rw [List.append_nil, hp]
    exact ha
  obtain ⟨x, hx, rfl⟩ := exists_between hseparate hboth
  have hresolved := toLowercase_resolved request
  rw [decodedPath_eq]
  rw [← hp, ← List.append_nil (_ ++ last.toList)] at hresolved ⊢
  obtain ⟨hdecode, hapart⟩ := lower_decode_between hfirst hlast hx hresolved
  refine ⟨_, hdecode.trans ?_, hapart⟩
  rw [decode_nil, lower_nil, List.append_nil]

theorem ends_of_endsWith {w : String} (hw : Word w.toList)
    (h : Text.endsWith (toLowercase request.url.path) w = true) :
    Between "" w (decodedPath request) := by
  obtain ⟨before, hbefore, hapart⟩ := ends_of_suffix (toLowercase_head request)
    (toLowercase_resolved request) hw (List.isSuffixOf_iff_suffix.mp h)
  exact ⟨before, by rw [decodedPath_eq, hbefore]; rfl, hapart⟩

theorem decodedPath_of_eq {w : String} (hw : Word w.toList)
    (h : toLowercase request.url.path = w) : decodedPath request = w.toList := by
  have hdecode := decode_plain_append hw.plain []
  rw [List.append_nil, decode_nil, List.append_nil] at hdecode
  rw [decodedPath_eq, h, hdecode, hw.low]

theorem showsBlob_of_tests
    (hstarts : Text.startsWith (toLowercase request.url.path) "/v2/" = true)
    (hcontains : Text.contains (toLowercase request.url.path) "/blobs/" = true) :
    ShowsBlob (decodedPath request) := by
  obtain ⟨a, ha⟩ := List.isPrefixOf_iff_prefix.mp hstarts
  obtain ⟨p, s, hp⟩ := Text.contains_iff.mp hcontains
  have hcut : p ++ "/blobs/".toList ++ s = p ++ ("/blobs".toList ++ '/' :: s) := by
    rw [List.append_assoc]
    rfl
  have hboth : "/v2".toList ++ '/' :: a = p ++ ("/blobs".toList ++ '/' :: s) := by
    rw [← hcut, hp]
    exact ha
  have hblobs : Word "/blobs".toList := by decide
  obtain ⟨x, hx, rfl⟩ := exists_between (by decide) hboth
  have hresolved := toLowercase_resolved request
  rw [decodedPath_eq]
  rw [← hp, hcut, ← List.append_assoc] at hresolved ⊢
  obtain ⟨hdecode, hapart⟩ := lower_decode_between (by decide) hblobs hx hresolved
  refine ⟨_, lower (decode s), hdecode.trans ?_, hapart, ?_⟩
  · rw [decode_cons_of_ne (by decide)]
    rfl
  · exact dots_lower.not.mpr (resolved_append.mp hresolved).2.not_dots

theorem showsGateway_of_tests
    (hcontains : Text.contains (toLowercase request.url.path)
      "/providers/microsoft.network/applicationgateways/" = true)
    (hends : Text.endsWith (toLowercase request.url.path) "/backendhealth" = true) :
    ShowsGateway (decodedPath request) := by
  rw [decodedPath_eq]
  exact shows_between (by decide) (by decide) (by decide) (by simp)
    (toLowercase_head request) (toLowercase_resolved request)
    (Text.contains_iff.mp hcontains) (List.isSuffixOf_iff_suffix.mp hends)

end

/-! ## Media -/

theorem eq_of_toLower_a {c : Char} (h : c.toLower = 'a') : c = 'a' ∨ c = 'A' := by
  rw [← Char.toNat_inj, Padding.toNat_toLower] at h
  rw [← Char.toNat_inj, ← Char.toNat_inj]
  show c.toNat = 97 ∨ c.toNat = 65
  change _ = 97 at h
  split at h <;> omega

theorem showsMedia_of_contains {request : Request}
    (h : Text.contains (toLowercase (request.url.query.getD "")) "alt=media" = true) :
    ShowsMedia (decodedQuery request) := by
  have hinside := Text.contains_iff.mp h
  rw [toList_toLowercase] at hinside
  obtain ⟨p, s, hp⟩ := hinside
  have hcut : lower (request.url.query.getD "").toList
      = (p ++ ['a']) ++ "lt=media".toList ++ s := by
    rw [← hp]
    simp
  obtain ⟨front, rest, hquery, hfront, -⟩ := List.map_eq_append_iff.mp hcut
  obtain ⟨before, media, rfl, hbefore, hmedia⟩ := List.map_eq_append_iff.mp hfront
  obtain ⟨before, last, rfl, -, hlast⟩ := List.map_eq_append_iff.mp hbefore
  obtain ⟨a, t, rfl, ha, ht⟩ := List.map_eq_cons_iff.mp hlast
  obtain rfl := List.map_eq_nil_iff.mp ht
  have hplain : '%' ∉ media := by
    rw [← mem_lower (by decide) (by decide), show lower media = _ from hmedia]
    decide
  obtain ⟨l, m, rfl, hl, -⟩ := List.map_eq_cons_iff.mp (show List.map Char.toLower media
    = 'l' :: "t=media".toList from hmedia)
  have hdigit : hexValue l = none := by
    rw [← hexValue_toLower, hl]
    decide
  obtain ⟨x, b, hx, hb⟩ := decode_concat before a
  refine ⟨x, b, l :: m ++ decode rest, ?_, ?_, ?_⟩
  · rw [decodedQuery, hquery, decode_around hplain rfl hdigit, hx]
    simp
  · rw [lower_append, show lower (l :: m) = _ from hmedia]
    exact List.prefix_append _ _
  · obtain rfl | ⟨high, hhigh⟩ := hb
    · exact (eq_of_toLower_a ha).imp_right Or.inl
    · obtain ⟨k, n, -, hn, hbyte⟩ := toNat_byteOf hhigh
      have hten : hexValue 'a' = some 10 := by decide
      rw [← hexValue_toLower, ha, hten] at hn
      cases hn
      exact Or.inr (Or.inr (by omega))

/-- A byte that the parameter can start at, written so that it ends with its first letter. -/
theorem exists_written {b : Char} (hlt : b.toNat < 256)
    (h : b = 'a' ∨ b = 'A' ∨ b.toNat % 16 = 10) :
    ∃ start a, (∀ c ∈ start ++ [a], isQueryChar c = true) ∧ a.toLower = 'a'
      ∧ ∀ rest, decode (start ++ a :: rest) = b :: decode rest := by
  obtain rfl | rfl | hnibble := h
  · exact ⟨[], 'a', List.all_eq_true.mp (by decide), rfl, decode_cons_of_ne (by decide)⟩
  · exact ⟨[], 'A', List.all_eq_true.mp (by decide), rfl, decode_cons_of_ne (by decide)⟩
  · have hbyte := byteOf_digits hlt
    rw [hnibble] at hbyte
    refine ⟨['%', Nat.digitChar (b.toNat / 16)], 'a', fun c hc => ?_, rfl, decode_escape hbyte⟩
    simp only [List.cons_append, List.nil_append, List.mem_cons, List.not_mem_nil,
      or_false] at hc
    obtain rfl | rfl | rfl := hc
    · decide
    · exact isQueryChar_digitChar _ (by omega)
    · decide

/-- A query that shows the parameter can be spelled so that the policy finds it. -/
theorem exists_media {request : Request} (h : ShowsMedia (decodedQuery request)) :
    ∃ other, Respelled request other
      ∧ Text.contains (toLowercase (other.url.query.getD "")) "alt=media" = true := by
  obtain ⟨x, b, after, hquery, ⟨z', hafter⟩, hb⟩ := h
  obtain ⟨media, z, rfl, hmedia, -⟩ := List.map_eq_append_iff.mp hafter.symm
  have hbytes := queryBytes request
  rw [hquery] at hbytes
  have hx : ∀ c ∈ x, c.toNat < 256 := fun c hc => hbytes c (by simp [hc])
  have hz : ∀ c ∈ z, c.toNat < 256 := fun c hc => hbytes c (by simp [hc])
  obtain ⟨start, a, hstart, ha, hdecode⟩ := exists_written (hbytes b (by simp)) hb
  have hplain : '%' ∉ media := by
    rw [← mem_lower (by decide) (by decide), show lower media = _ from hmedia]
    decide
  have hmarks : "lt=media".toList.all isQueryChar = true := by decide
  obtain ⟨segment, hsegment, hdots⟩ := apart_path request
  cases hasked : request.url.query with
  | none =>
    rw [decodedQuery, hasked] at hquery
    cases x <;> cases hquery
  | some q =>
    rw [decodedQuery, hasked] at hquery
    change decode q.toList = _ at hquery
    have hchars : ∀ c ∈ encode x ++ (start ++ a :: (media ++ encode z)),
        isQueryChar c = true := by
      intro c hc
      rw [show encode x ++ (start ++ a :: (media ++ encode z))
          = (encode x ++ (start ++ [a])) ++ (media ++ encode z) by simp] at hc
      obtain hc | hc := List.mem_append.mp hc
      · exact (List.mem_append.mp hc).elim (isQueryChar_encode hx) (hstart c)
      obtain hc | hc := List.mem_append.mp hc
      · refine isUrlChar_of_toLower (by decide) (List.all_eq_true.mp hmarks _ ?_)
        rw [← hmedia]
        exact List.mem_map_of_mem hc
      · exact isQueryChar_encode hz hc
    obtain ⟨other, hother, -, hwritten⟩ :=
      exists_respelled (q := some (encode x ++ (start ++ a :: (media ++ encode z))))
        (Spelling.veil (pathBytes request) (Or.inr ⟨segment, hsegment, hdots⟩)) (by
          rw [hasked]
          show some (decode _) = some (decode q.toList)
          rw [hquery, decode_encode_append hx, hdecode, decode_plain_append hplain,
            decode_encode hz]) hchars
    refine ⟨other, hother,
      Text.contains_iff.mpr ⟨lower (encode x ++ start), lower (encode z), ?_⟩⟩
    rw [hwritten, toList_toLowercase]
    show _ = lower (String.ofList _).toList
    rw [String.toList_ofList]
    simp [ha, show lower media = "lt=media".toList from hmedia]

/-! ## From what a path decodes to to how it can be written -/

theorem spelling_of_empty (v : List Char) (h : List.map Char.toLower v = "".toList) :
    Spelling v v := by
  obtain rfl := List.map_eq_nil_iff.mp h
  exact Spelling.nil

theorem spelling_of_lower {w : String} (hw : Word w.toList) {v : List Char}
    (h : List.map Char.toLower v = w.toList) : Spelling v v :=
  Spelling.word hw h

section

variable {request : Request}

/-- A path that shows a word can be spelled so that the policy finds it. -/
theorem exists_shown {w : String} (hw : Word w.toList) (h : Shows w (decodedPath request)) :
    ∃ other, Respelled request other
      ∧ Text.contains (toLowercase other.url.path) (w ++ "/") = true
      ∧ ∃ front segment, (toLowercase other.url.path).toList = front ++ '/' :: encode segment
        ∧ ∀ b ∈ segment, b.toNat < 256 := by
  obtain ⟨before, segment, hpath, hbefore, hdots⟩ := h
  obtain ⟨front, rest, hdecode, hfront, hrest⟩ := List.map_eq_append_iff.mp hpath
  obtain ⟨x, v, rfl, rfl, hv⟩ := List.map_eq_append_iff.mp hfront
  obtain ⟨c, z, rfl, hc, rfl⟩ := List.map_eq_cons_iff.mp hrest
  obtain rfl : c = '/' := (Padding.toLower_eq_iff (by decide) (by decide)).mp hc
  have hbytes := pathBytes request
  rw [hdecode] at hbytes
  have hx : ∀ b ∈ x, b.toNat < 256 := fun b hb => hbytes b (by simp [hb])
  have hz : ∀ b ∈ z, b.toNat < 256 := fun b hb => hbytes b (by simp [hb])
  have hrest' : ∀ b ∈ '/' :: z, b.toNat < 256 := fun b hb => hbytes b (List.mem_append_right _ hb)
  have hx' : Apart x := apart_lower.mp hbefore
  have hz' : Apart ('/' :: z) := Or.inr ⟨z, rfl, dots_lower.not.mp hdots⟩
  have hspell : Spelling (x ++ v ++ '/' :: z) (veil x ++ v ++ veil ('/' :: z)) :=
    ((Spelling.veil hx hx').append (spelling_of_lower hw hv)).append (Spelling.veil hrest' hz')
  rw [← hdecode] at hspell
  obtain ⟨other, hother, hwritten, -⟩ := exists_with_path hspell
  have htext : (toLowercase other.url.path).toList = veil x ++ w.toList ++ '/' :: encode z := by
    rw [hwritten, toList_toLowercase, String.toList_ofList, lower_append, lower_append,
      lower_veil hx hx', lower_veil hrest' hz', show lower v = _ from hv]
    rfl
  refine ⟨other, hother, Text.contains_iff.mpr ⟨veil x, encode z, ?_⟩, _, z, htext, hz⟩
  rw [htext, String.toList_append]
  simp

/-- A path that shows a blob can be spelled so that the policy finds it. -/
theorem exists_blob (h : ShowsBlob (decodedPath request)) :
    ∃ other, Respelled request other
      ∧ Text.startsWith (toLowercase other.url.path) "/v2/" = true
      ∧ Text.contains (toLowercase other.url.path) "/blobs/" = true := by
  obtain ⟨between, segment, hpath, hbetween, hdots⟩ := h
  obtain ⟨front, rest, hdecode, hfront, hrest⟩ := List.map_eq_append_iff.mp hpath
  obtain ⟨front, blobs, rfl, hfront, hblobs⟩ := List.map_eq_append_iff.mp hfront
  obtain ⟨v, x, rfl, hv, rfl⟩ := List.map_eq_append_iff.mp hfront
  obtain ⟨c, z, rfl, hc, rfl⟩ := List.map_eq_cons_iff.mp hrest
  obtain rfl : c = '/' := (Padding.toLower_eq_iff (by decide) (by decide)).mp hc
  have hbytes := pathBytes request
  rw [hdecode] at hbytes
  have hx : ∀ b ∈ x, b.toNat < 256 := fun b hb => hbytes b (by simp [hb])
  have hrest' : ∀ b ∈ '/' :: z, b.toNat < 256 := fun b hb => hbytes b (List.mem_append_right _ hb)
  have hx' : Apart x := apart_lower.mp hbetween
  have hz' : Apart ('/' :: z) := Or.inr ⟨z, rfl, dots_lower.not.mp hdots⟩
  have hspell : Spelling (v ++ x ++ blobs ++ '/' :: z)
      (v ++ veil x ++ blobs ++ veil ('/' :: z)) :=
    (((spelling_of_lower (by decide) hv).append (Spelling.veil hx hx')).append
      (spelling_of_lower (by decide) hblobs)).append (Spelling.veil hrest' hz')
  rw [← hdecode] at hspell
  obtain ⟨other, hother, hwritten, -⟩ := exists_with_path hspell
  have htext : (toLowercase other.url.path).toList
      = "/v2".toList ++ veil x ++ "/blobs".toList ++ '/' :: encode z := by
    rw [hwritten, toList_toLowercase, String.toList_ofList, lower_append, lower_append,
      lower_append, lower_veil hx hx', lower_veil hrest' hz', show lower v = _ from hv,
      show lower blobs = _ from hblobs]
    rfl
  refine ⟨other, hother, ?_, Text.contains_iff.mpr ⟨"/v2".toList ++ veil x, encode z, ?_⟩⟩
  · rw [Text.startsWith, List.isPrefixOf_iff_prefix, htext]
    obtain rfl | ⟨y, rfl, -⟩ := hx'
    · exact ⟨"blobs".toList ++ '/' :: encode z, rfl⟩
    · exact ⟨encode y ++ "/blobs".toList ++ '/' :: encode z, by simp [veil]⟩
  · rw [htext]
    simp

theorem Spelling.not_forbids {bytes text : List Char} (h : Spelling bytes text) :
    ¬Forbids (lower (String.ofList text).toList) := by
  rw [String.toList_ofList]
  exact h.harmless.not_forbids

theorem exists_exact {w : String} (hw : Word w.toList) (h : decodedPath request = w.toList) :
    ∃ other, Respelled request other ∧ ¬Forbids (lower other.url.path.toList)
      ∧ toLowercase other.url.path = w := by
  have hspell : Spelling (decode request.url.path.toList) (decode request.url.path.toList) :=
    spelling_of_lower hw h
  obtain ⟨other, hother, hwritten, -⟩ := exists_with_path hspell
  refine ⟨other, hother, ?_, ?_⟩
  · rw [hwritten]
    exact hspell.not_forbids
  · refine String.toList_inj.mp ?_
    rw [hwritten, toList_toLowercase, String.toList_ofList]
    exact h

theorem exists_between_words {first last : String}
    (hfirst : ∀ v, List.map Char.toLower v = first.toList → Spelling v v)
    (hlast : Word last.toList) (h : Between first last (decodedPath request)) :
    ∃ other, Respelled request other ∧ ¬Forbids (lower other.url.path.toList)
      ∧ Text.startsWith (toLowercase other.url.path) (first ++ "/") = true
      ∧ Text.endsWith (toLowercase other.url.path) last = true := by
  obtain ⟨between, hpath, hbetween⟩ := h
  obtain ⟨front, u, hdecode, hfront, hu⟩ := List.map_eq_append_iff.mp hpath
  obtain ⟨v, x, rfl, hv, rfl⟩ := List.map_eq_append_iff.mp hfront
  have hbytes := pathBytes request
  rw [hdecode] at hbytes
  have hx : ∀ b ∈ x, b.toNat < 256 := fun b hb => hbytes b (by simp [hb])
  have hx' : Apart x := apart_lower.mp hbetween
  have hspell : Spelling (v ++ x ++ u) (v ++ veil x ++ u) :=
    ((hfirst v hv).append (Spelling.veil hx hx')).append (spelling_of_lower hlast hu)
  rw [← hdecode] at hspell
  obtain ⟨other, hother, hwritten, -⟩ := exists_with_path hspell
  have htext : (toLowercase other.url.path).toList = first.toList ++ veil x ++ last.toList := by
    rw [hwritten, toList_toLowercase, String.toList_ofList, lower_append, lower_append,
      lower_veil hx hx', show lower v = _ from hv, show lower u = _ from hu]
  refine ⟨other, hother, ?_, ?_, ?_⟩
  · rw [hwritten]
    exact hspell.not_forbids
  · rw [Text.startsWith, List.isPrefixOf_iff_prefix, htext, String.toList_append,
      List.append_assoc]
    refine (List.prefix_append_right_inj _).mpr ?_
    obtain rfl | ⟨y, rfl, -⟩ := hx'
    · obtain ⟨w, hw⟩ := hlast.exists_cons
      rw [hw]
      exact ⟨w, rfl⟩
    · exact ⟨encode y ++ last.toList, rfl⟩
  · rw [Text.endsWith, List.isSuffixOf_iff_suffix, htext]
    exact List.suffix_append _ _

/-- A path that shows a gateway can be spelled so that the policy finds it. -/
theorem exists_gateway {first last : String} (hfirst : Word first.toList)
    (hlast : Word last.toList) {before between : List Char}
    (hpath : decodedPath request = before ++ first.toList ++ between ++ last.toList)
    (hbefore : Apart before) (hbetween : Apart between) :
    ∃ other, Respelled request other ∧ ¬Forbids (lower other.url.path.toList)
      ∧ Text.contains (toLowercase other.url.path) (first ++ "/") = true
      ∧ Text.endsWith (toLowercase other.url.path) last = true := by
  obtain ⟨front, u, hdecode, hfront, hu⟩ := List.map_eq_append_iff.mp hpath
  obtain ⟨start, y, rfl, hstart, rfl⟩ := List.map_eq_append_iff.mp hfront
  obtain ⟨x, v, rfl, rfl, hv⟩ := List.map_eq_append_iff.mp hstart
  have hbytes := pathBytes request
  rw [hdecode] at hbytes
  have hx : ∀ b ∈ x, b.toNat < 256 := fun b hb => hbytes b (by simp [hb])
  have hy : ∀ b ∈ y, b.toNat < 256 := fun b hb => hbytes b (by simp [hb])
  have hx' : Apart x := apart_lower.mp hbefore
  have hy' : Apart y := apart_lower.mp hbetween
  have hspell : Spelling (x ++ v ++ y ++ u) (veil x ++ v ++ veil y ++ u) :=
    (((Spelling.veil hx hx').append (spelling_of_lower hfirst hv)).append
      (Spelling.veil hy hy')).append (spelling_of_lower hlast hu)
  rw [← hdecode] at hspell
  obtain ⟨other, hother, hwritten, -⟩ := exists_with_path hspell
  have htext : (toLowercase other.url.path).toList
      = veil x ++ first.toList ++ veil y ++ last.toList := by
    rw [hwritten, toList_toLowercase, String.toList_ofList, lower_append, lower_append,
      lower_append, lower_veil hx hx', lower_veil hy hy', show lower v = _ from hv,
      show lower u = _ from hu]
  refine ⟨other, hother, ?_, ?_, ?_⟩
  · rw [hwritten]
    exact hspell.not_forbids
  · rw [Text.contains_iff, htext, String.toList_append, List.append_assoc, List.append_assoc]
    refine List.IsInfix.trans ?_ (List.suffix_append _ _).isInfix
    refine ((List.prefix_append_right_inj _).mpr ?_).isInfix
    obtain rfl | ⟨z, rfl, -⟩ := hy'
    · obtain ⟨w, hw⟩ := hlast.exists_cons
      rw [hw]
      exact ⟨w, rfl⟩
    · exact ⟨encode z ++ last.toList, rfl⟩
  · rw [Text.endsWith, List.isSuffixOf_iff_suffix, htext]
    exact List.suffix_append _ _

theorem word_operation : ∀ operation ∈ ["getmetricdata", "listmetrics", "describealarms"],
    Word ("/service/graniteserviceversion20100801/operation/" ++ operation).toList := by
  decide

theorem documented_of_tests {host : Option String} {form : Bool}
    (h : (documented host (toLowercase request.url.path)
      || !form && documentedQuery (toLowercase request.url.path)) = true) :
    Documented host form (decodedPath request) := by
  simp only [documented, documentedQuery, Bool.or_eq_true, Bool.and_eq_true, Bool.not_eq_true',
    beq_iff_eq, List.contains_cons, List.contains_nil, Bool.or_false, Option.any_eq_true] at h
  obtain (((((⟨⟨hhost, hstarts⟩, hends⟩ | ⟨hhost, hpath⟩) | ⟨⟨hhost, hcontains⟩, hends⟩)
    | ⟨hhost, hpath⟩) | ⟨hhost, operation, hstrip, hoperation⟩) | ⟨⟨hhost, hstarts⟩, hends⟩)
    | ⟨hform, hpath⟩ := h
  · exact Or.inl ⟨hhost, Or.inl
      (between_of_tests (by decide) (by decide) (by decide) hstarts hends)⟩
  · exact Or.inr (Or.inl ⟨hhost, hpath.imp (decodedPath_of_eq (by decide))
      (decodedPath_of_eq (by decide))⟩)
  · exact Or.inl ⟨hhost, Or.inr (showsGateway_of_tests hcontains hends)⟩
  · exact Or.inr (Or.inr (Or.inl ⟨hhost, hpath.imp (decodedPath_of_eq (by decide))
      (decodedPath_of_eq (by decide))⟩))
  · refine Or.inr (Or.inr (Or.inr (Or.inl ⟨hhost, ?_⟩)))
    exact ⟨operation, by simpa using hoperation, decodedPath_of_eq
      (word_operation operation (by simpa using hoperation))
      (Text.stripPrefix_eq_some.mp hstrip)⟩
  · exact Or.inr (Or.inr (Or.inr (Or.inr (Or.inl ⟨hhost,
      between_of_tests (by decide) (by decide) (by decide) hstarts hends⟩))))
  · refine Or.inr (Or.inr (Or.inr (Or.inr (Or.inr ⟨hform, ?_⟩))))
    obtain (hpath | hends) | hends := hpath
    · exact Or.inl (decodedPath_of_eq (by decide) hpath)
    · exact Or.inr (Or.inl (ends_of_endsWith (by decide) hends))
    · exact Or.inr (Or.inr (ends_of_endsWith (by decide) hends))

theorem exists_documented {host : Option String} {form : Bool}
    (h : Documented host form (decodedPath request)) :
    ∃ other, Respelled request other ∧ ¬Forbids (lower other.url.path.toList)
      ∧ (documented host (toLowercase other.url.path)
        || !form && documentedQuery (toLowercase other.url.path)) = true := by
  obtain ⟨hhost, hpath | ⟨before, between, hpath, hbefore, hbetween⟩⟩ | ⟨hhost, hpath⟩
    | ⟨hhost, hpath⟩ | ⟨hhost, operation, hoperation, hpath⟩ | ⟨hhost, hpath⟩
    | ⟨hform, hpath | hpath | hpath⟩ := h
  · obtain ⟨other, hother, hwords, hstarts, hends⟩ :=
      exists_between_words (fun v hv => spelling_of_lower (by decide) hv) (by decide) hpath
    refine ⟨other, hother, hwords, ?_⟩
    rw [documented, hhost, show Text.startsWith _ "/subscriptions/" = true from hstarts, hends]
    rfl
  · obtain ⟨other, hother, hwords, hcontains, hends⟩ :=
      exists_gateway (by decide) (by decide) hpath hbefore hbetween
    refine ⟨other, hother, hwords, ?_⟩
    rw [documented, hhost, hends, show Text.contains _
      "/providers/microsoft.network/applicationgateways/" = true from hcontains]
    simp only [Bool.and_true, Bool.or_true, Bool.true_or]
  · have hword : ∀ w ∈ ["/oauth2/exchange", "/oauth2/token"], Word w.toList := by decide
    obtain ⟨w, hw, hpath⟩ : ∃ w ∈ ["/oauth2/exchange", "/oauth2/token"],
        decodedPath request = w.toList := by
      simpa using hpath
    obtain ⟨other, hother, hwords, heq⟩ := exists_exact (hword w hw) hpath
    refine ⟨other, hother, hwords, ?_⟩
    rw [documented, hhost, heq, List.contains_iff_mem.mpr hw]
    simp only [Bool.and_true, Bool.or_true, Bool.true_or]
  · have hword : ∀ w ∈ ["/slos", "/budget-report"], Word w.toList := by decide
    obtain ⟨w, hw, hpath⟩ : ∃ w ∈ ["/slos", "/budget-report"],
        decodedPath request = w.toList := by
      simpa using hpath
    obtain ⟨other, hother, hwords, heq⟩ := exists_exact (hword w hw) hpath
    refine ⟨other, hother, hwords, ?_⟩
    rw [documented, hhost, heq, List.contains_iff_mem.mpr hw]
    simp only [Bool.and_true, Bool.or_true, Bool.true_or]
  · obtain ⟨other, hother, hwords, heq⟩ :=
      exists_exact (word_operation operation hoperation) hpath
    refine ⟨other, hother, hwords, ?_⟩
    rw [documented, hhost, Text.stripPrefix_eq_some.mpr heq, Option.any_some,
      List.contains_iff_mem.mpr hoperation]
    simp only [Bool.and_true, Bool.or_true, Bool.true_or]
  · obtain ⟨other, hother, hwords, hstarts, hends⟩ :=
      exists_between_words (fun v hv => spelling_of_lower (by decide) hv) (by decide) hpath
    refine ⟨other, hother, hwords, ?_⟩
    rw [documented, hhost, show Text.startsWith _ "/v1/workspaces/" = true from hstarts, hends]
    simp only [Bool.and_true, Bool.or_true, Bool.true_or]
  · obtain ⟨other, hother, hwords, heq⟩ :=
      exists_exact (w := "/v2/entries:list") (by decide) hpath
    refine ⟨other, hother, hwords, ?_⟩
    rw [documentedQuery, heq, hform]
    simp only [beq_self_eq_true, Bool.not_false, Bool.true_and, Bool.true_or, Bool.or_true]
  · obtain ⟨other, hother, hwords, -, hends⟩ :=
      exists_between_words spelling_of_empty (by decide) hpath
    refine ⟨other, hother, hwords, ?_⟩
    rw [documentedQuery, hends, hform]
    simp only [Bool.not_false, Bool.true_and, Bool.true_or, Bool.or_true]
  · obtain ⟨other, hother, hwords, -, hends⟩ :=
      exists_between_words spelling_of_empty (by decide) hpath
    refine ⟨other, hother, hwords, ?_⟩
    rw [documentedQuery, hends, hform]
    simp only [Bool.not_false, Bool.true_and, Bool.or_true]

/-! ## The policy and what is decoded -/

namespace Respelled

variable {other : Request} (h : Respelled request other)

include h

theorem decodedPath : ReadPolicy.decodedPath other = ReadPolicy.decodedPath request :=
  congrArg lower h.path

theorem decodedQuery : ReadPolicy.decodedQuery other = ReadPolicy.decodedQuery request := by
  have hquery := h.query
  rw [ReadPolicy.decodedQuery, ReadPolicy.decodedQuery]
  cases hr : request.url.query with
  | none =>
    rw [hr] at hquery
    rw [Option.map_eq_none_iff.mp hquery]
  | some q =>
    rw [hr] at hquery
    obtain ⟨p, hp, heq⟩ := Option.map_eq_some_iff.mp hquery
    rw [hp]
    exact heq

theorem isForm : ReadPolicy.isForm other = ReadPolicy.isForm request := by
  rw [ReadPolicy.isForm, ReadPolicy.isForm, header, header, h.headers]

theorem namesRead : ReadPolicy.namesRead other = ReadPolicy.namesRead request := by
  rw [ReadPolicy.namesRead, ReadPolicy.namesRead, h.isForm, formAction, formAction, pairs, pairs,
    h.body, targetAction, targetAction, header, header, h.headers]

end Respelled

/-- A forbidden word that is written is decoded to itself. -/
theorem forbids_decodedPath (h : Forbids (lower request.url.path.toList)) :
    Forbids (decodedPath request) := by
  have hwords : ∀ word ∈ forbidden, '%' ∉ word.toList ∧ lower word.toList = word.toList
      ∧ (word.toList.head?.bind hexValue) = none ∧ word.toList.head?.isSome = true := by
    decide
  obtain ⟨word, hword, p, s, hp⟩ := h
  obtain ⟨hplain, hlower, hdigit, hsome⟩ := hwords word hword
  obtain ⟨c, hc⟩ := Option.isSome_iff_exists.mp hsome
  rw [hc] at hdigit
  refine ⟨word, hword, lower (decode p), lower (decode s), ?_⟩
  rw [decodedPath_eq, toList_toLowercase, ← hp, decode_around hplain hc hdigit, lower_append,
    lower_append, hlower]

theorem Shows.isInfix {w : String} {path : List Char} (h : Shows w path) :
    (w ++ "/").toList <:+: path := by
  obtain ⟨before, segment, rfl, -, -⟩ := h
  exact ⟨before, segment, by simp⟩

theorem ShowsBlob.tests {path : List Char} (h : ShowsBlob path) :
    "/v2/".toList <+: path ∧ "/blobs/".toList <:+: path := by
  obtain ⟨between, segment, rfl, hbetween, -⟩ := h
  refine ⟨?_, "/v2".toList ++ between, segment, by simp⟩
  obtain rfl | ⟨y, rfl, -⟩ := hbetween
  · exact ⟨"blobs".toList ++ '/' :: segment, rfl⟩
  · exact ⟨y ++ "/blobs".toList ++ '/' :: segment, by simp⟩

theorem readable_of_not_shows (hmedia : ¬ShowsMedia (decodedQuery request))
    (hobjects : ¬Shows "/objects" (decodedPath request))
    (hblob : ¬ShowsBlob (decodedPath request))
    (hsecrets : ¬Shows "/secrets" (decodedPath request)) :
    readable (toLowercase request.url.path) (toLowercase (request.url.query.getD "")) = true := by
  have hmedia' := Bool.eq_false_iff.mpr fun h => hmedia (showsMedia_of_contains h)
  have hobjects' := Bool.eq_false_iff.mpr fun h => hobjects (shows_of_contains (by decide) h)
  have hsecrets' := Bool.eq_false_iff.mpr fun h => hsecrets (shows_of_contains (by decide) h)
  have hblob' : (Text.startsWith (toLowercase request.url.path) "/v2/"
      && Text.contains (toLowercase request.url.path) "/blobs/") = false := by
    refine Bool.eq_false_iff.mpr fun h => ?_
    rw [Bool.and_eq_true] at h
    exact hblob (showsBlob_of_tests h.1 h.2)
  rw [readable, hmedia', hblob', show Text.contains _ "/objects/" = false from hobjects',
    show Text.contains _ "/secrets/" = false from hsecrets']
  rfl

theorem allowed_of_unreadable (hmethod : request.method = .get ∨ request.method = .head)
    (h : readable (toLowercase request.url.path) (toLowercase (request.url.query.getD ""))
      = false) : allowed request = false := by
  by_cases hscheme : request.url.scheme = "https"
  · by_cases hwords : Forbids (lower request.url.path.toList)
    · exact allowed_of_forbids hwords
    · rw [allowed_read hscheme hwords hmethod, h]
  · exact allowed_of_scheme hscheme

end

section

variable {request : Request} (hmethod : request.method = .get ∨ request.method = .head)

include hmethod

theorem Respelled.reads {other : Request} (h : Respelled request other) :
    other.method = .get ∨ other.method = .head := by
  rw [h.method]
  exact hmethod

/-- A request that reads is allowed in a spelling that hides its words. -/
theorem exists_allowed (hscheme : request.url.scheme = "https") :
    ∃ other, Respelled request other ∧ allowed other = true := by
  obtain ⟨other, hother, hhidden⟩ := exists_hidden request
  refine ⟨other, hother, ?_⟩
  rw [allowed_read (hother.scheme.trans hscheme) hhidden.not_forbids (hother.reads hmethod)]
  exact hhidden.readable

theorem exists_refused_media (h : ShowsMedia (decodedQuery request)) :
    ∃ other, Respelled request other ∧ allowed other = false := by
  obtain ⟨other, hother, hmedia⟩ := exists_media h
  refine ⟨other, hother, allowed_of_unreadable (hother.reads hmethod) ?_⟩
  rw [readable, hmedia]
  rfl

theorem exists_refused_objects (h : Shows "/objects" (decodedPath request)) :
    ∃ other, Respelled request other ∧ allowed other = false := by
  obtain ⟨other, hother, hobjects, -⟩ := exists_shown (by decide) h
  refine ⟨other, hother, allowed_of_unreadable (hother.reads hmethod) ?_⟩
  rw [readable, show Text.contains _ "/objects/" = true from hobjects]
  simp only [Bool.not_true, Bool.and_false, Bool.false_and]

theorem exists_refused_blob (h : ShowsBlob (decodedPath request)) :
    ∃ other, Respelled request other ∧ allowed other = false := by
  obtain ⟨other, hother, hstarts, hcontains⟩ := exists_blob h
  refine ⟨other, hother, allowed_of_unreadable (hother.reads hmethod) ?_⟩
  rw [readable, hstarts, hcontains]
  simp only [Bool.and_true, Bool.not_true, Bool.and_false, Bool.false_and]

/-- The versions of a secret are not allowed where the end of their path is hidden. -/
theorem exists_refused_secrets (h : Shows "/secrets" (decodedPath request)) :
    ∃ other, Respelled request other ∧ allowed other = false := by
  obtain ⟨other, hother, hsecrets, front, segment, hpath, hbytes⟩ := exists_shown (by decide) h
  refine ⟨other, hother, allowed_of_unreadable (hother.reads hmethod) ?_⟩
  have hends : Text.endsWith (toLowercase other.url.path) "/versions" = false := by
    refine Bool.eq_false_iff.mpr fun hends => ?_
    obtain ⟨t, ht⟩ := List.isSuffixOf_iff_suffix.mp hends
    have hlast := congrArg List.getLast? (ht.trans hpath)
    rw [List.getLast?_append, List.getLast?_append,
      List.getLast?_eq_some_getLast (List.cons_ne_nil '/' (encode segment))] at hlast
    have hmem : 's' ∈ '/' :: encode segment := by
      rw [show 's' = _ from Option.some.inj hlast]
      exact List.getLast_mem _
    obtain h | hmem := List.mem_cons.mp hmem
    · cases h
    · exact not_foreign_of_mem_encode hbytes hmem (by decide)
  rw [readable, show Text.contains _ "/secrets/" = true from hsecrets, hends]
  simp only [Bool.not_true, Bool.or_false, Bool.and_false]

/-- Where every word is shown in no spelling, every spelling is allowed. -/
theorem allowed_of_plain (hscheme : request.url.scheme = "https")
    (hwords : ¬Forbids (decodedPath request)) (hmedia : ¬ShowsMedia (decodedQuery request))
    (hobjects : ¬Shows "/objects" (decodedPath request))
    (hblob : ¬ShowsBlob (decodedPath request))
    (hsecrets : ¬Shows "/secrets" (decodedPath request)) {other : Request}
    (h : Respelled request other) : allowed other = true := by
  rw [← h.decodedPath] at hwords hobjects hblob hsecrets
  rw [← h.decodedQuery] at hmedia
  rw [allowed_read (h.scheme.trans hscheme) (fun hw => hwords (forbids_decodedPath hw))
    (h.reads hmethod)]
  exact readable_of_not_shows hmedia hobjects hblob hsecrets

end

theorem Respelled.refl (request : Request) : Respelled request request :=
  ⟨rfl, rfl, rfl, rfl, rfl, rfl, rfl⟩

/-- A policy that refuses every spelling reads nothing. -/
theorem guarded_of_refused {request : Request}
    (h : ∀ other, Respelled request other → allowed other = false) : Guarded request := by
  have hself := h request (Respelled.refl request)
  have hnot : ¬allowed request = true := by
    rw [hself]
    exact Bool.false_ne_true
  exact ⟨fun other hother => (h other hother).trans hself.symm, fun ha => absurd ha hnot,
    fun _ ha => absurd ha hnot, fun _ _ ha => absurd ha hnot⟩

section

variable {request : Request} (hscheme : request.url.scheme = "https")

include hscheme

theorem guarded_get (hmethod : request.method = .get) :
    Guarded request ↔ ¬Forbids (decodedPath request)
      ∧ ¬Content (decodedPath request) (lower (decodedQuery request))
      ∧ ¬ShowsMedia (decodedQuery request) ∧ ¬Shows "/secrets" (decodedPath request) := by
  have hread : request.method = .get ∨ request.method = .head := Or.inl hmethod
  constructor
  · intro h
    obtain ⟨other, hother, hallowed⟩ := exists_allowed hread hscheme
    have hself : allowed request = true := (h.invariant other hother).symm.trans hallowed
    have hno : ¬∃ other, Respelled request other ∧ allowed other = false := by
      rintro ⟨other, hother, hrefused⟩
      rw [h.invariant other hother, hself] at hrefused
      cases hrefused
    exact ⟨h.words hself, h.content hmethod hself,
      fun hmedia => hno (exists_refused_media hread hmedia),
      fun hsecrets => hno (exists_refused_secrets hread hsecrets)⟩
  · rintro ⟨hwords, hcontent, hmedia, hsecrets⟩
    have hall : ∀ other, Respelled request other → allowed other = true := by
      intro other hother
      refine allowed_of_plain hread hscheme hwords hmedia ?_ ?_ hsecrets hother
      · exact fun hobjects => hcontent (Or.inr (Or.inr (Or.inl hobjects.isInfix)))
      · exact fun hblob => hcontent (Or.inr (Or.inl hblob.tests))
    have hself := hall request (Respelled.refl request)
    exact ⟨fun other hother => (hall other hother).trans hself.symm, fun _ => hwords,
      fun _ _ => hcontent, fun hpost => absurd (hmethod.symm.trans hpost) nofun⟩

theorem guarded_head (hmethod : request.method = .head) :
    Guarded request ↔ ¬Forbids (decodedPath request)
      ∧ ¬ShowsMedia (decodedQuery request) ∧ ¬Shows "/objects" (decodedPath request)
      ∧ ¬ShowsBlob (decodedPath request) ∧ ¬Shows "/secrets" (decodedPath request) := by
  have hread : request.method = .get ∨ request.method = .head := Or.inr hmethod
  constructor
  · intro h
    obtain ⟨other, hother, hallowed⟩ := exists_allowed hread hscheme
    have hself : allowed request = true := (h.invariant other hother).symm.trans hallowed
    have hno : ¬∃ other, Respelled request other ∧ allowed other = false := by
      rintro ⟨other, hother, hrefused⟩
      rw [h.invariant other hother, hself] at hrefused
      cases hrefused
    exact ⟨h.words hself, fun hmedia => hno (exists_refused_media hread hmedia),
      fun hobjects => hno (exists_refused_objects hread hobjects),
      fun hblob => hno (exists_refused_blob hread hblob),
      fun hsecrets => hno (exists_refused_secrets hread hsecrets)⟩
  · rintro ⟨hwords, hmedia, hobjects, hblob, hsecrets⟩
    have hall : ∀ other, Respelled request other → allowed other = true := fun other hother =>
      allowed_of_plain hread hscheme hwords hmedia hobjects hblob hsecrets hother
    have hself := hall request (Respelled.refl request)
    exact ⟨fun other hother => (hall other hother).trans hself.symm, fun _ => hwords,
      fun hget => absurd (hmethod.symm.trans hget) nofun,
      fun hpost => absurd (hmethod.symm.trans hpost) nofun⟩

/-- A POST that names a read is allowed in every spelling, unless a word of its path is
forbidden. -/
theorem guarded_post_read (hmethod : request.method = .post) (hnames : namesRead request = true) :
    Guarded request ↔ ¬Forbids (decodedPath request)
      ∧ (isForm request = true → ∀ action ∈ actions request, isFormRead action = true) := by
  have hall : ∀ other, Respelled request other → ¬Forbids (lower other.url.path.toList) →
      allowed other = true := by
    intro other hother hwords
    rw [allowed_post (hother.scheme.trans hscheme) hwords (hother.method.trans hmethod),
      hother.namesRead, hnames, Bool.or_true]
  constructor
  · intro h
    obtain ⟨other, hother, hhidden⟩ := exists_hidden request
    have hself : allowed request = true :=
      (h.invariant other hother).symm.trans (hall other hother hhidden.not_forbids)
    exact ⟨h.words hself, fun hform => h.actions hmethod hform hself⟩
  · rintro ⟨hwords, hactions⟩
    have hplain : ∀ other, Respelled request other → allowed other = true := by
      intro other hother
      refine hall other hother fun hw => hwords ?_
      rw [← hother.decodedPath]
      exact forbids_decodedPath hw
    have hself := hplain request (Respelled.refl request)
    exact ⟨fun other hother => (hplain other hother).trans hself.symm, fun _ => hwords,
      fun hget => absurd (hmethod.symm.trans hget) nofun, fun _ hform _ => hactions hform⟩

/-- A POST that names no read is refused in every spelling, unless its path is documented. -/
theorem guarded_post_other (hmethod : request.method = .post)
    (hnames : namesRead request = false) :
    Guarded request ↔ ¬Documented request.url.host (isForm request) (decodedPath request) := by
  have hanswer : ∀ other, Respelled request other → ¬Forbids (lower other.url.path.toList) →
      allowed other = (documented request.url.host (toLowercase other.url.path)
        || !isForm request && documentedQuery (toLowercase other.url.path)) := by
    intro other hother hwords
    rw [allowed_post (hother.scheme.trans hscheme) hwords (hother.method.trans hmethod),
      hother.namesRead, hnames, Bool.or_false, hother.host, hother.isForm]
  constructor
  · intro h hdocumented
    obtain ⟨hidden, hhidden, hwords⟩ := exists_hidden request
    obtain ⟨other, hother, hshown, htests⟩ := exists_documented hdocumented
    have hrefused := hanswer hidden hhidden hwords.not_forbids
    rw [← hhidden.host, hwords.documented, hwords.documentedQuery, Bool.and_false] at hrefused
    have hallowed := (hanswer other hother hshown).trans htests
    rw [h.invariant other hother, ← h.invariant hidden hhidden, hrefused] at hallowed
    cases hallowed
  · intro hnone
    have hall : ∀ other, Respelled request other → allowed other = false := by
      intro other hother
      by_cases hwords : Forbids (lower other.url.path.toList)
      · exact allowed_of_forbids hwords
      · rw [hanswer other hother hwords]
        refine Bool.eq_false_iff.mpr fun htests => hnone ?_
        rw [← hother.decodedPath]
        exact documented_of_tests htests
    exact guarded_of_refused hall

end

/-- The policy is that of what a request decodes to exactly if nothing it tests can be hidden
or shown by the encoding. -/
theorem guarded_iff (request : Request) : Guarded request ↔ Plain request := by
  by_cases hscheme : request.url.scheme = "https"
  · rw [Plain, forall_prop_of_true hscheme]
    cases hmethod : request.method with
    | get => exact guarded_get hscheme hmethod
    | head => exact guarded_head hscheme hmethod
    | post =>
      cases hnames : namesRead request with
      | true => exact guarded_post_read hscheme hmethod hnames
      | false =>
        simp only [Bool.false_eq_true, if_false]
        exact guarded_post_other hscheme hmethod hnames
    | other =>
      refine iff_of_true (guarded_of_refused fun other hother => ?_) trivial
      exact allowed_of_other (hother.method.trans hmethod)
  · refine iff_of_true (guarded_of_refused fun other hother => ?_) fun h => absurd h hscheme
    exact allowed_of_scheme (hother.scheme ▸ hscheme)

namespace Sample

/-- An object's media, with the first letter of its collection escaped. -/
def media : Request where
  method := .get
  url := {
    scheme := "https"
    host := some "storage.googleapis.com"
    path := "/storage/v1/b/b/%6fbjects/customer"
    query := none
    rooted := by decide
    pathChars := by decide
    queryChars := by decide
    resolved := by decide }
  headers := []
  body := none

end Sample

/-- An object's media is read where a letter of the path is escaped. -/
theorem media_allowed :
    allowed Sample.media = true ∧ Content (decodedPath Sample.media) []
      ∧ ¬Guarded Sample.media := by
  have hallowed : allowed Sample.media = true := by decide +kernel
  have hcontent : Content (decodedPath Sample.media) [] := by
    refine Or.inr (Or.inr (Or.inl ⟨"/storage/v1/b/b".toList, "customer".toList, ?_⟩))
    decide +kernel
  exact ⟨hallowed, hcontent, fun h => h.content rfl hallowed hcontent⟩

end HealthMonitor.Integrations.ReadPolicy
