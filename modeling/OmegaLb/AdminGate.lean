import OmegaLb.AdminKill
import OmegaLb.FixedWindow
import OmegaLb.StepRun

/-! What stands before handle_admin: the allowlist, the limiter and the token. A request passes all
three without an await. What ipaddress makes of a text is a parameter. -/
namespace OmegaLb.AdminGate
open AdminHandle (Data Site Phase Input handleAdmin)
open FixedWindow (Table Tracks times)
open GoText (Bytes)
open StepRun (Run Does runTrace)

abbrev Text := List Char

/-! ### Addresses -/

structure Address where
  v6 : Bool
  ip : Nat
  deriving DecidableEq, Repr

structure Network where
  v6 : Bool
  ip : Nat
  maskBits : Nat
  deriving DecidableEq, Repr

def Network.hostBits (n : Network) : Nat := (if n.v6 then 128 else 32) - n.maskBits

def Network.contains (n : Network) (a : Address) : Bool :=
  n.v6 = a.v6 && a.ip >>> n.hostBits = n.ip >>> n.hostBits

/-- The entries that ip_network rejects are skipped. -/
def parseAdminNetworks (ipNetwork : Text → Option Network) (rawList : List Text) : List Network :=
  rawList.filterMap ipNetwork

/-! ### One request -/

structure Request where
  remote : Option Text
  peername : Option Text
  adminToken : Text
  authorization : Text
  deriving DecidableEq, Repr

structure Config where
  networks : List Network
  limitPerMin : Int
  token : Option Text

def truthy (text : Option Text) : Bool := text ≠ none && text ≠ some []

def clientIp (r : Request) : Option Text :=
  if truthy r.remote then r.remote
  else match r.peername with
    | some peer => some peer
    | none => r.remote

def isIpAllowed (ipAddress : Text → Option Address) (networks : List Network) (ip : Option Text) : Bool :=
  if networks = [] then true
  else match ip with
    | none => false
    | some text =>
      if text = [] then false
      else match ipAddress text with
        | none => false
        | some address => networks.any fun n => n.contains address

/-- Who gets past a configured list. One whose entries are all rejected keeps nobody out. -/
theorem allowlistExact (ipAddress : Text → Option Address) (ipNetwork : Text → Option Network) (rawList : List Text)
    (ip : Option Text) : isIpAllowed ipAddress (parseAdminNetworks ipNetwork rawList) ip = true ↔
      (∀ item ∈ rawList, ipNetwork item = none) ∨ ∃ text address item network, ip = some text ∧ text ≠ [] ∧
        ipAddress text = some address ∧ item ∈ rawList ∧ ipNetwork item = some network ∧
          network.contains address = true := by
  have rejected : parseAdminNetworks ipNetwork rawList = [] ↔ ∀ item ∈ rawList, ipNetwork item = none :=
    List.filterMap_eq_nil_iff
  unfold isIpAllowed
  rw [← rejected]
  by_cases open_ : parseAdminNetworks ipNetwork rawList = []
  · rw [if_pos open_]
    exact iff_of_true rfl (.inl open_)
  · rw [if_neg open_]
    constructor
    · intro passes
      cases ip with
      | none => contradiction
      | some text =>
        dsimp only at passes
        split at passes <;> try contradiction
        rename_i nonempty
        cases parsed : ipAddress text with
        | none =>
          rw [parsed] at passes
          contradiction
        | some address =>
          rw [parsed] at passes
          obtain ⟨network, listed, inside⟩ := List.any_eq_true.mp passes
          obtain ⟨item, member, read⟩ := List.mem_filterMap.mp listed
          exact .inr ⟨text, address, item, network, rfl, nonempty, parsed, member, read, inside⟩
    · rintro (none_ | ⟨text, address, item, network, rfl, nonempty, parsed, member, read, inside⟩)
      · exact absurd none_ open_
      · dsimp only
        rw [if_neg nonempty, parsed]
        exact List.any_eq_true.mpr ⟨network, List.mem_filterMap.mpr ⟨item, member, read⟩, inside⟩

/-- str.isspace of one character -/
def isSpace (c : Char) : Bool :=
  (9 ≤ c.toNat && c.toNat ≤ 13) || (28 ≤ c.toNat && c.toNat ≤ 32) || c.toNat = 0x85 || c.toNat = 0xa0 ||
    c.toNat = 0x1680 || (0x2000 ≤ c.toNat && c.toNat ≤ 0x200a) || c.toNat = 0x2028 || c.toNat = 0x2029 ||
    c.toNat = 0x202f || c.toNat = 0x205f || c.toNat = 0x3000

def strip (text : Text) : Text := ((text.dropWhile isSpace).reverse.dropWhile isSpace).reverse

def givenToken (r : Request) : Text :=
  if (r.authorization.take 7).map Char.toLower = "bearer ".toList then strip (r.authorization.drop 7) else r.adminToken

def authorised (cfg : Config) (r : Request) : Bool :=
  !truthy cfg.token || some (givenToken r) = cfg.token

/-! ### The limiter -/

structure AdminRateLimiter where
  limit : Nat
  state : Table Text Int

def AdminRateLimiter.init (limitPerMin : Int) : AdminRateLimiter := ⟨(max 1 limitPerMin).toNat, fun _ => none⟩

def windowOf (now : Int) : Int := now - now % 60

def AdminRateLimiter.allow (l : AdminRateLimiter) (ip : Text) (now : Int) : AdminRateLimiter × Bool × Nat :=
  let windowStart := windowOf now
  match l.state ip with
  | none => ({ l with state := Function.update l.state ip (some (windowStart, 1)) }, true, l.limit - 1)
  | some (start, count) =>
    if start ≠ windowStart then
      ({ l with state := Function.update l.state ip (some (windowStart, 1)) }, true, l.limit - 1)
    else if count ≥ l.limit then (l, false, 0)
    else
      let count := count + 1
      ({ l with state := Function.update l.state ip (some (windowStart, count)) }, true, l.limit - count)

/-! ### The gate -/

inductive Refusal where
  | forbidden
  | adminRateLimited
  | unauthorized
  deriving DecidableEq, Repr

def Refusal.status : Refusal → Nat
  | .forbidden => 403
  | .adminRateLimited => 429
  | .unauthorized => 401

def Refusal.text : Refusal → String
  | .forbidden => "forbidden"
  | .adminRateLimited => "admin_rate_limited"
  | .unauthorized => "unauthorized"

/-- A request, and the second in which the limiter sees it. -/
structure Visit where
  now : Int
  request : Request
  deriving DecidableEq, Repr

/-- `client_ip or "unknown"` -/
def Visit.key (v : Visit) : Text :=
  match clientIp v.request with
  | some ip => if ip = [] then "unknown".toList else ip
  | none => "unknown".toList

section Gate
variable (ipAddress : Text → Option Address) (cfg : Config)

def Visit.allowed (v : Visit) : Bool := isIpAllowed ipAddress cfg.networks (clientIp v.request)

/-- What is left of the limit where the request gets to its body. -/
def gate (l : AdminRateLimiter) (v : Visit) : AdminRateLimiter × Except Refusal Nat :=
  if !v.allowed ipAddress cfg then (l, .error .forbidden)
  else
    let (l, ok, remaining) := l.allow v.key v.now
    if !ok then (l, .error .adminRateLimited)
    else if !authorised cfg v.request then (l, .error .unauthorized)
    else (l, .ok remaining)

/-! ### The requests of a site -/

structure Served where
  visit : Visit
  outcome : Except Refusal Nat
  phase : Phase

structure World (F : Type) where
  limiter : AdminRateLimiter
  site : Site F
  served : List Served

inductive Event where
  | arrive (visit : Visit)
  | resume (i : Nat) (input : Input)

def refused : Except Refusal Nat → Option Nat
  | .error refusal => some refusal.status
  | .ok _ => none

variable {F : Type} (intOfText : Bytes → Option Int)

def World.start (site : Site F) : World F := ⟨.init cfg.limitPerMin, site, []⟩

def World.exec (w : World F) : Event → Option (World F)
  | .arrive v =>
    let (limiter, outcome) := gate ipAddress cfg w.limiter v
    (handleAdmin intOfText w.site .arrived (.gate (refused outcome))).map fun (site, phase) =>
      ⟨limiter, site, w.served ++ [⟨v, outcome, phase⟩]⟩
  | .resume i input =>
    w.served[i]?.bind fun s => (handleAdmin intOfText w.site s.phase input).map fun (site, phase) =>
      { w with site := site, served := w.served.set i { s with phase := phase } }

end Gate

/-! ### What is promised -/

def Visit.slot (v : Visit) : Text × Int := (v.key, windowOf v.now)

def Event.visit : Event → Option Visit
  | .arrive v => some v
  | .resume .. => none

/-- The minute of the clock does not go back. -/
def Forward (es : List Event) : Prop := ((es.filterMap Event.visit).map fun v => windowOf v.now).Pairwise (· ≤ ·)

section Promise
variable (ipAddress : Text → Option Address) (cfg : Config) {F : Type}

def spentBy (past : List Visit) : List (Text × Int) := (past.filter fun v => v.allowed ipAddress cfg).map Visit.slot

def allowance : Nat := (AdminRateLimiter.init cfg.limitPerMin).limit

def verdict (past : List Visit) (v : Visit) : Except Refusal Nat :=
  if !v.allowed ipAddress cfg then .error .forbidden
  else if allowance cfg ≤ times (spentBy ipAddress cfg past) v.slot then .error .adminRateLimited
  else if !authorised cfg v.request then .error .unauthorized
  else .ok (allowance cfg - (times (spentBy ipAddress cfg past) v.slot + 1))

def passed (o : Except Refusal Nat) : Bool :=
  match o with
  | .error .forbidden | .error .adminRateLimited => false
  | _ => true

structure Honest (w : World F) : Prop where
  outcome : ∀ i s, w.served[i]? = some s →
    s.outcome = verdict ipAddress cfg ((w.served.take i).map Served.visit) s.visit
  few : ∀ slot, w.served.countP (fun s => s.visit.slot = slot && passed s.outcome) ≤ allowance cfg

/-! ### One visit -/

theorem allowVisit (l : AdminRateLimiter) (ip : Text) (now : Int) :
    (l.allow ip now).1 = { l with state := (FixedWindow.visit l.limit l.state (ip, windowOf now)).1 } ∧
    (l.allow ip now).2 = match (FixedWindow.visit l.limit l.state (ip, windowOf now)).2 with
      | some count => (true, l.limit - count)
      | none => (false, 0) := by
  unfold AdminRateLimiter.allow FixedWindow.visit
  dsimp only
  cases l.state ip with
  | none => exact ⟨rfl, rfl⟩
  | some seen =>
    obtain ⟨start, count⟩ := seen
    by_cases other : start ≠ windowOf now
    · simp [if_pos other, Table.put]
    · by_cases spent : l.limit ≤ count
      · simp [if_neg other, if_pos spent]
      · simp [if_neg other, if_neg spent, Table.put]

theorem allowanceSome (cfg : Config) : 0 < allowance cfg := by
  change 0 < (max 1 cfg.limitPerMin).toNat
  omega

theorem spentNext (past : List Visit) (v : Visit) : spentBy ipAddress cfg (past ++ [v]) =
    spentBy ipAddress cfg past ++ if v.allowed ipAddress cfg then [v.slot] else [] := by
  rw [spentBy, List.filter_append, List.map_append, List.filter_singleton]
  cases v.allowed ipAddress cfg <;> rfl

variable {ipAddress cfg}

theorem gateVerdict {past : List Visit} {l : AdminRateLimiter} (limit : l.limit = allowance cfg)
    (tracks : Tracks (allowance cfg) (spentBy ipAddress cfg past) l.state) {v : Visit}
    (later : ∀ u ∈ past, windowOf u.now ≤ windowOf v.now) :
    (gate ipAddress cfg l v).2 = verdict ipAddress cfg past v ∧ (gate ipAddress cfg l v).1.limit = allowance cfg ∧
      Tracks (allowance cfg) (spentBy ipAddress cfg (past ++ [v])) (gate ipAddress cfg l v).1.state := by
  unfold gate verdict
  rw [spentNext]
  cases v.allowed ipAddress cfg with
  | false =>
    simpa using ⟨limit, tracks⟩
  | true =>
    have before : ∀ u ∈ spentBy ipAddress cfg past, u.1 = v.slot.1 → u.2 ≤ v.slot.2 := by
      intro u inside _
      obtain ⟨x, member, rfl⟩ := List.mem_map.mp inside
      exact later x (List.mem_filter.mp member).1
    obtain ⟨answer, next⟩ := FixedWindow.visitExact (allowanceSome cfg) tracks before
    obtain ⟨table, reply⟩ := allowVisit l v.key v.now
    change _ = { l with state := (FixedWindow.visit l.limit l.state v.slot).1 } at table
    change _ = match (FixedWindow.visit l.limit l.state v.slot).2 with | some count => _ | none => _ at reply
    have kept : (l.allow v.key v.now).1.limit = allowance cfg := (congrArg AdminRateLimiter.limit table).trans limit
    have tracked : Tracks (allowance cfg) (spentBy ipAddress cfg past ++ [v.slot]) (l.allow v.key v.now).1.state := by
      rw [table, limit]
      exact next
    rw [limit] at reply
    generalize l.allow v.key v.now = allowed at reply kept tracked
    obtain ⟨after, ok, remaining⟩ := allowed
    by_cases full : allowance cfg ≤ times (spentBy ipAddress cfg past) v.slot
    · rw [if_neg (Nat.not_lt.mpr full)] at answer
      rw [answer] at reply
      cases reply
      simpa [full] using ⟨kept, tracked⟩
    · rw [if_pos (Nat.not_le.mp full)] at answer
      rw [answer] at reply
      cases reply
      cases authorised cfg v.request with
      | false => simpa [full] using ⟨kept, tracked⟩
      | true => simpa [full] using ⟨kept, tracked⟩

/-! ### Every visit -/

def record (s : Served) : Visit × Except Refusal Nat := (s.visit, s.outcome)

variable (ipAddress cfg) in
structure Tallied (past : List (Visit × Except Refusal Nat)) (l : AdminRateLimiter) : Prop where
  limit : l.limit = allowance cfg
  tracks : Tracks (allowance cfg) (spentBy ipAddress cfg (past.map Prod.fst)) l.state
  outcome : ∀ i v o, past[i]? = some (v, o) → o = verdict ipAddress cfg ((past.take i).map Prod.fst) v
  count : ∀ slot, past.countP (fun r => r.1.slot = slot && passed r.2) =
    min (allowance cfg) (times (spentBy ipAddress cfg (past.map Prod.fst)) slot)

theorem talliedStart : Tallied ipAddress cfg [] (.init cfg.limitPerMin) where
  limit := rfl
  tracks := FixedWindow.tracksEmpty _
  outcome _ _ _ found := absurd found nofun
  count _ := (Nat.min_zero _).symm

theorem passedVerdict (past : List Visit) (v : Visit) : passed (verdict ipAddress cfg past v) =
    (v.allowed ipAddress cfg && decide (times (spentBy ipAddress cfg past) v.slot < allowance cfg)) := by
  unfold verdict
  cases v.allowed ipAddress cfg with
  | false => rfl
  | true =>
    by_cases full : allowance cfg ≤ times (spentBy ipAddress cfg past) v.slot
    · simp [full, passed]
    · cases authorised cfg v.request <;> simp [full, Nat.not_le.mp full, passed]

theorem countNext {past : List (Visit × Except Refusal Nat)} {l : AdminRateLimiter} (tallied : Tallied ipAddress cfg past l)
    (v : Visit) (slot : Text × Int) :
    (past ++ [(v, verdict ipAddress cfg (past.map Prod.fst) v)]).countP (fun r => r.1.slot = slot && passed r.2) =
      min (allowance cfg) (times (spentBy ipAddress cfg (past.map Prod.fst ++ [v])) slot) := by
  rw [List.countP_append, tallied.count slot, List.countP_singleton, passedVerdict, spentNext]
  cases v.allowed ipAddress cfg with
  | false => simp
  | true =>
    by_cases own : v.slot = slot
    · subst own
      rw [if_pos rfl, FixedWindow.timesSelf]
      by_cases room : times (spentBy ipAddress cfg (past.map Prod.fst)) v.slot < allowance cfg
      · simp only [room, decide_true, Bool.and_self, if_true]
        omega
      · simp only [room, decide_true, decide_false, Bool.and_false, if_false, Bool.false_eq_true]
        omega
    · rw [if_pos rfl, FixedWindow.timesOther own]
      simp [own]

theorem talliedNext {past : List (Visit × Except Refusal Nat)} {l : AdminRateLimiter} (tallied : Tallied ipAddress cfg past l)
    {v : Visit} (later : ∀ u ∈ past.map Prod.fst, windowOf u.now ≤ windowOf v.now) :
    Tallied ipAddress cfg (past ++ [(v, (gate ipAddress cfg l v).2)]) (gate ipAddress cfg l v).1 := by
  obtain ⟨same, limit, tracks⟩ := gateVerdict tallied.limit tallied.tracks later
  rw [same]
  refine ⟨limit, ?_, fun i u o found => ?_, fun slot => ?_⟩
  · rw [List.map_append]
    exact tracks
  · rcases Nat.lt_or_ge i past.length with before | last
    · rw [List.getElem?_append_left before] at found
      rw [List.take_append_of_le_length (le_of_lt before)]
      exact tallied.outcome i u o found
    · rw [List.getElem?_append_right last] at found
      obtain ⟨here, equal⟩ := List.getElem?_eq_some_iff.mp found
      have zero : i - past.length = 0 := by
        rw [List.length_singleton] at here
        omega
      have end_ : i = past.length := by
        omega
      simp only [zero, List.getElem_cons_zero] at equal
      cases equal
      rw [end_, List.take_left]
  · rw [List.map_append]
    exact countNext tallied v slot

/-! ### Every run -/

theorem arriveServed {intOfText : Bytes → Option Int} {w t : World F} {v : Visit}
    (done : w.exec ipAddress cfg intOfText (.arrive v) = some t) :
    ∃ phase, t = ⟨(gate ipAddress cfg w.limiter v).1, w.site,
        w.served ++ [⟨v, (gate ipAddress cfg w.limiter v).2, phase⟩]⟩ ∧
      phase = match refused (gate ipAddress cfg w.limiter v).2 with
        | some status => .replied status
        | none => .readingBody := by
  unfold World.exec at done
  dsimp only at done
  generalize gate ipAddress cfg w.limiter v = gated at done ⊢
  cases outcome : refused gated.2 with
  | some status =>
    rw [outcome] at done
    cases done
    exact ⟨_, rfl, rfl⟩
  | none =>
    rw [outcome] at done
    cases done
    exact ⟨_, rfl, rfl⟩

theorem resumeServed {intOfText : Bytes → Option Int} {w t : World F} {i : Nat} {input : Input}
    (done : w.exec ipAddress cfg intOfText (.resume i input) = some t) :
    ∃ s phase, w.served[i]? = some s ∧ handleAdmin intOfText w.site s.phase input = some (t.site, phase) ∧
      t = { w with site := t.site, served := w.served.set i { s with phase := phase } } := by
  obtain ⟨s, found, rest⟩ := Option.bind_eq_some_iff.mp done
  obtain ⟨⟨site, phase⟩, handled, rfl⟩ := Option.map_eq_some_iff.mp rest
  exact ⟨s, phase, found, handled, rfl⟩

theorem setRecords {served : List Served} {i : Nat} {s : Served} (found : served[i]? = some s) (phase : Phase) :
    (served.set i { s with phase := phase }).map record = served.map record := by
  rw [List.map_set]
  refine List.ext_getElem? fun j => ?_
  rw [List.getElem?_set, List.getElem?_map]
  split
  · rename_i same
    subst same
    rw [found, List.length_map, if_pos (List.getElem?_eq_some_iff.mp found).1]
    rfl
  · rfl

def Kept (ipAddress : Text → Option Address) (cfg : Config) (es : List Event) (w : World F) : Prop :=
  Forward es → Tallied ipAddress cfg (w.served.map record) w.limiter ∧
    (w.served.map record).map Prod.fst = es.filterMap Event.visit

theorem forwardSnoc {es : List Event} {v : Visit} (forward : Forward (es ++ [.arrive v])) :
    Forward es ∧ ∀ u ∈ es.filterMap Event.visit, windowOf u.now ≤ windowOf v.now := by
  unfold Forward at forward
  rw [List.filterMap_append, List.map_append, List.pairwise_append] at forward
  refine ⟨forward.1, fun u inside => forward.2.2 _ (List.mem_map_of_mem inside) _ (List.mem_singleton_self _)⟩

theorem keptNext {intOfText : Bytes → Option Int} (es : List Event) (w : World F) (e : Event) (t : World F)
    (kept : Kept ipAddress cfg es w) (taken : Does (World.exec ipAddress cfg intOfText) w e t) :
    Kept ipAddress cfg (es ++ [e]) t := by
  intro forward
  cases e with
  | arrive v =>
    obtain ⟨before, later⟩ := forwardSnoc forward
    obtain ⟨tallied, visits⟩ := kept before
    obtain ⟨phase, rfl, -⟩ := arriveServed taken
    rw [← visits] at later
    have next := talliedNext tallied later
    rw [List.map_append, List.map_append, visits, List.filterMap_append]
    exact ⟨next, rfl⟩
  | resume i input =>
    have silent : (es ++ [Event.resume i input]).filterMap Event.visit = es.filterMap Event.visit := by
      rw [List.filterMap_append]
      exact List.append_nil _
    obtain ⟨tallied, visits⟩ := kept (by unfold Forward at forward ⊢; rwa [silent] at forward)
    obtain ⟨s, phase, found, -, same⟩ := resumeServed taken
    rw [same, setRecords found, silent]
    exact ⟨tallied, visits⟩

theorem talliedHonest {w : World F} (tallied : Tallied ipAddress cfg (w.served.map record) w.limiter) :
    Honest ipAddress cfg w := by
  constructor
  · intro i s found
    have recorded : (w.served.map record)[i]? = some (s.visit, s.outcome) := by
      rw [List.getElem?_map, found]
      rfl
    rw [tallied.outcome i _ _ recorded, ← List.map_take, List.map_map]
    rfl
  · intro slot
    have counted := tallied.count slot
    rw [List.countP_map] at counted
    exact counted.trans_le (min_le_left _ _)

/-- Each request gets what the allowlist, the requests of its address in its minute and its token give it,
and the limiter passes no more than its limit for an address in a minute. -/
theorem outcomesExact {intOfText : Bytes → Option Int} {site : Site F} {es : List Event} {w : World F}
    (run : Run (Does (World.exec ipAddress cfg intOfText)) (.start cfg site) es w) (forward : Forward es) :
    Honest ipAddress cfg w := by
  have start : Kept ipAddress cfg [] (World.start cfg site) := fun _ => ⟨talliedStart, rfl⟩
  exact talliedHonest (runTrace keptNext run [] start forward).1

/-! ### Who changes the site -/

def ended : Phase → Bool
  | .replied _ | .cancelled => true
  | _ => false

variable (ipAddress cfg) in
structure Entitled (s : Served) : Prop where
  allowed : s.visit.allowed ipAddress cfg = true
  authorised : authorised cfg s.visit.request = true
  passes : ∃ remaining, s.outcome = .ok remaining

theorem gateEntitled {l : AdminRateLimiter} {v : Visit} (admits : refused (gate ipAddress cfg l v).2 = none) (phase : Phase) :
    Entitled ipAddress cfg ⟨v, (gate ipAddress cfg l v).2, phase⟩ := by
  unfold gate at admits ⊢
  dsimp only at admits ⊢
  generalize l.allow v.key v.now = reply at admits ⊢
  split at admits
  · cases admits
  · rename_i allowed
    split at admits
    · cases admits
    · rename_i ok
      split at admits
      · cases admits
      · rename_i token
        refine ⟨by simpa using allowed, by simpa using token, reply.2.2, ?_⟩
        rw [if_neg allowed, if_neg ok, if_neg token]

theorem endedStays {intOfText : Bytes → Option Int} {site : Site F} {phase : Phase} {input : Input} {out : Site F × Phase}
    (done : handleAdmin intOfText site phase input = some out) : ended phase = false := by
  cases phase with
  | replied => cases done
  | cancelled => cases done
  | arrived => rfl
  | readingBody => rfl
  | telling => rfl

variable (ipAddress cfg) in
def AllEntitled (w : World F) : Prop := ∀ s ∈ w.served, ended s.phase = false → Entitled ipAddress cfg s

theorem entitledNext {intOfText : Bytes → Option Int} (w : World F) (e : Event) (t : World F)
    (every : AllEntitled ipAddress cfg w) (taken : Does (World.exec ipAddress cfg intOfText) w e t) :
    AllEntitled ipAddress cfg t := by
  cases e with
  | arrive v =>
    obtain ⟨phase, rfl, began⟩ := arriveServed taken
    intro s inside going
    rcases List.mem_append.mp inside with before | last
    · exact every s before going
    · rw [List.mem_singleton.mp last] at going ⊢
      refine gateEntitled ?_ phase
      cases outcome : refused (gate ipAddress cfg w.limiter v).2 with
      | none => rfl
      | some status =>
        rw [outcome] at began
        rw [began] at going
        cases going
  | resume i input =>
    obtain ⟨s, phase, found, handled, same⟩ := resumeServed taken
    have entitled := every s (List.mem_of_getElem? found) (endedStays handled)
    rw [same]
    exact StepRun.everySet every i fun _ => ⟨entitled.allowed, entitled.authorised, entitled.passes⟩

/-- Only a request that came from the allowlist with the token, within its limit, changes anything. -/
theorem siteGuarded {intOfText : Bytes → Option Int} {site : Site F} {es : List Event} {w t : World F} {e : Event}
    (run : Run (Does (World.exec ipAddress cfg intOfText)) (.start cfg site) es w)
    (taken : w.exec ipAddress cfg intOfText e = some t) (changed : t.site ≠ w.site) :
    ∃ i input s, e = .resume i input ∧ w.served[i]? = some s ∧ Entitled ipAddress cfg s := by
  have start : AllEntitled ipAddress cfg (World.start cfg site) := fun s inside => absurd inside List.not_mem_nil
  have every := StepRun.runInvariant entitledNext run start
  cases e with
  | arrive v =>
    obtain ⟨phase, rfl, -⟩ := arriveServed taken
    exact absurd rfl changed
  | resume i input =>
    obtain ⟨s, phase, found, handled, -⟩ := resumeServed taken
    exact ⟨i, input, s, rfl, found, every s (List.mem_of_getElem? found) (endedStays handled)⟩

end Promise

/-! ### A minute at the limit -/

def guarded : Config := ⟨[⟨false, 0x7f000000, 8⟩], 2, some "s3cret".toList⟩

def localAddress (text : Text) : Option Address :=
  if text = "127.0.0.1".toList then some ⟨false, 0x7f000001⟩
  else if text = "10.0.0.9".toList then some ⟨false, 0x0a000009⟩
  else none

def from_ (remote : String) (authorization : String) (now : Int) : Visit :=
  ⟨now, ⟨some remote.toList, none, [], authorization.toList⟩⟩

/-- The request with the wrong token counts against the one that has the right one. -/
def minute : List Event :=
  [.arrive (from_ "127.0.0.1" "Bearer s3cret " 125), .arrive (from_ "127.0.0.1" "Bearer guess" 130),
    .arrive (from_ "10.0.0.9" "Bearer s3cret" 131), .arrive (from_ "127.0.0.1" "Bearer s3cret" 179),
    .arrive (from_ "127.0.0.1" "bearer s3cret" 180)]

theorem outcomesExactMinute : ∃ w, Run (Does (World.exec localAddress guarded fun _ => none))
    (.start guarded AdminKill.two.site) minute w ∧
    w.served.map Served.outcome =
      [.ok 1, .error .unauthorized, .error .forbidden, .error .adminRateLimited, .ok 1] ∧
    Honest localAddress guarded w := by
  have ⟨w, run, got⟩ : ∃ w, Run (Does (World.exec localAddress guarded fun _ => none))
      (.start guarded AdminKill.two.site) minute w ∧ decide (w.served.map Served.outcome =
        [.ok 1, .error .unauthorized, .error .forbidden, .error .adminRateLimited, .ok 1]) = true :=
    StepRun.runAny (by decide +kernel)
  exact ⟨w, run, of_decide_eq_true got, outcomesExact run (by unfold Forward; decide +kernel)⟩

def killsFirst : Input := .body (.dict [(GoText.ascii "kill_backend", .int 0)])

theorem siteGuardedMinute : ∃ w t, Run (Does (World.exec localAddress guarded fun _ => none))
    (.start guarded AdminKill.two.site) minute w ∧
    w.exec localAddress guarded (fun _ => none) (.resume 4 killsFirst) = some t ∧
    ∃ i input s, Event.resume 4 killsFirst = .resume i input ∧ w.served[i]? = some s ∧ Entitled localAddress guarded s := by
  have ⟨w, run, kills⟩ : ∃ w, Run (Does (World.exec localAddress guarded fun _ => none))
      (.start guarded AdminKill.two.site) minute w ∧
      (w.exec localAddress guarded (fun _ => none) (.resume 4 killsFirst)).any (fun t =>
        t.site.proxy.metrics.health 0 != w.site.proxy.metrics.health 0) = true := StepRun.runAny (by decide +kernel)
  obtain ⟨t, taken, flag⟩ := (Option.any_eq_true _ _).mp kills
  refine ⟨w, t, run, taken, siteGuarded run taken fun same => ?_⟩
  rw [same] at flag
  simp at flag

end OmegaLb.AdminGate
