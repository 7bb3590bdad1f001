import OmegaLb.KernelMaps

/-! route_manager.bpf.c: the rules of a service are tried in the order of their indices, and each
prefix is compared on its first 8 bytes. -/
namespace OmegaLb.RouteManager
open KernelMaps (Kernel Verdict)

def protoHttp1 : UInt8 := 1
def protoTlsPassthrough : UInt8 := 6

def progLbPolicy : Nat := 2

structure RouteRule where
  protocol : UInt8
  pathPrefix : Vector UInt8 64
  clusterId : UInt32
  deriving DecidableEq, Repr

structure RequestCtx where
  protocol : UInt8
  serviceId : UInt32
  clusterId : UInt32
  path : Vector UInt8 64
  pathLen : UInt16
  deriving DecidableEq, Repr

/-- The maps route_manager uses; `serviceConfigMap` holds the rules of a service under their ids. -/
structure Routing where
  kernel : Kernel
  scratchMap : Nat → RequestCtx
  serviceConfigMap : UInt32 → Option (UInt32 → Option RouteRule)

def byteAt (bytes : Vector UInt8 64) (i : Nat) : UInt8 := bytes.get (Fin.ofNat 64 i)

/-- match_prefix at its byte `i`, with `left` rounds to go. -/
def matchPrefixFrom (path : Vector UInt8 64) (pathLen : UInt16) (pathPrefix : Vector UInt8 64) :
    Nat → Nat → Bool
  | 0, _ => true
  | left + 1, i =>
    if byteAt pathPrefix i = 0 then true
    else if i ≥ pathLen.toNat then false
    else if byteAt path i ≠ byteAt pathPrefix i then false
    else matchPrefixFrom path pathLen pathPrefix left (i + 1)

def matchPrefix (path : Vector UInt8 64) (pathLen : UInt16) (pathPrefix : Vector UInt8 64) : Bool :=
  matchPrefixFrom path pathLen pathPrefix 8 0

def matchRules (inner : UInt32 → Option RouteRule) (ctx : RequestCtx) : Nat → UInt32 → UInt32
  | 0, _ => 0
  | left + 1, ruleId =>
    match inner ruleId with
    | none => 0
    | some rule =>
      if rule.protocol ≠ ctx.protocol ∧ rule.protocol ≠ 0 then matchRules inner ctx left (ruleId + 1)
      else if matchPrefix ctx.path ctx.pathLen rule.pathPrefix then rule.clusterId
      else matchRules inner ctx left (ruleId + 1)

def matchedCluster (r : Routing) (ctx : RequestCtx) : UInt32 :=
  if ctx.protocol = protoTlsPassthrough then 0
  else
    match r.serviceConfigMap ctx.serviceId with
    | none => 0
    | some inner => matchRules inner ctx 32 0

def routeManager (r : Routing) (cpu : Nat) : Routing × Verdict :=
  match r.kernel.enter cpu with
  | none => (r, .pass)
  | some kernel =>
    let ctx := r.scratchMap cpu
    let ctx := { ctx with clusterId := matchedCluster r ctx }
    ({ r with kernel := kernel, scratchMap := Function.update r.scratchMap cpu ctx },
      .tailCall progLbPolicy)

/-! ### What a rule matches -/

def RequestCtx.text (ctx : RequestCtx) : List UInt8 := ctx.path.toList.take ctx.pathLen.toNat

def RouteRule.wholePrefix (rule : RouteRule) : List UInt8 := rule.pathPrefix.toList.takeWhile (· ≠ 0)

/-- The part of a prefix that the unrolled loop compares. -/
def RouteRule.comparedPrefix (rule : RouteRule) : List UInt8 :=
  (rule.pathPrefix.toList.take 8).takeWhile (· ≠ 0)

def RouteRule.Fits (rule : RouteRule) (part : RouteRule → List UInt8) (ctx : RequestCtx) : Prop :=
  (rule.protocol = 0 ∨ rule.protocol = ctx.protocol) ∧ part rule <+: ctx.text

/-- The cluster of the lowest-index rule that fits, and cluster 0 if none does. -/
def FirstFit (fits : RouteRule → Prop) (rules : List RouteRule) (cluster : UInt32) : Prop :=
  (∃ (i : Nat) (rule : RouteRule), rules[i]? = some rule ∧ fits rule ∧ cluster = rule.clusterId ∧
    ∀ j < i, ∀ lower, rules[j]? = some lower → ¬ fits lower) ∨
  (∀ rule ∈ rules, ¬ fits rule) ∧ cluster = 0

def ruleTable (rules : List RouteRule) (ruleId : UInt32) : Option RouteRule := rules[ruleId.toNat]?

theorem byteAtDrop (bytes : Vector UInt8 64) {i : Nat} (inside : i < 64) :
    bytes.toList.drop i = byteAt bytes i :: bytes.toList.drop (i + 1) := by
  have length : bytes.toList.length = 64 := by simp
  rw [List.drop_eq_getElem_cons (by omega)]
  simp [byteAt, Vector.get, Nat.mod_eq_of_lt inside]

theorem matchPrefixFromExact {path : Vector UInt8 64} {pathLen : UInt16} {pathPrefix : Vector UInt8 64}
    {left i : Nat} (inside : i + left ≤ 64) :
    matchPrefixFrom path pathLen pathPrefix left i ↔
      ((pathPrefix.toList.drop i).take left).takeWhile (· ≠ 0) <+:
        (path.toList.drop i).take (pathLen.toNat - i) := by
  induction left generalizing i with
  | zero => simp [matchPrefixFrom]
  | succ left ih =>
    rw [matchPrefixFrom, byteAtDrop pathPrefix (by omega), List.take_succ_cons]
    by_cases ended : byteAt pathPrefix i = 0
    · simp [ended]
    · rw [if_neg ended, List.takeWhile_cons_of_pos (by simpa using ended)]
      by_cases past : i ≥ pathLen.toNat
      · rw [if_pos past, Nat.sub_eq_zero_of_le past]
        simp
      · obtain ⟨more, here⟩ := Nat.exists_eq_add_of_lt (Nat.not_le.mp past)
        have after : pathLen.toNat - i = (pathLen.toNat - (i + 1)) + 1 := by omega
        rw [if_neg past, byteAtDrop path (by omega), after, List.take_succ_cons,
          List.cons_prefix_cons]
        by_cases same : byteAt path i = byteAt pathPrefix i
        · simpa [same] using ih (by omega)
        · simp [same, Ne.symm same]

theorem matchPrefixExact {ctx : RequestCtx} {rule : RouteRule} :
    matchPrefix ctx.path ctx.pathLen rule.pathPrefix ↔ rule.comparedPrefix <+: ctx.text :=
  matchPrefixFromExact (by decide)

/-! ### The rule loop -/

theorem firstFitHere {fits : RouteRule → Prop} {rule : RouteRule} (here : fits rule)
    (rest : List RouteRule) : FirstFit fits (rule :: rest) rule.clusterId :=
  .inl ⟨0, rule, rfl, here, rfl, fun _ below => absurd below (Nat.not_lt_zero _)⟩

theorem firstFitNext {fits : RouteRule → Prop} {rule : RouteRule} (not : ¬ fits rule)
    {rest : List RouteRule} {cluster : UInt32} (later : FirstFit fits rest cluster) :
    FirstFit fits (rule :: rest) cluster := by
  rcases later with ⟨i, found, at_, fit, same, lowest⟩ | ⟨nobody, zero⟩
  · refine .inl ⟨i + 1, found, at_, fit, same, fun j below lower atLower => ?_⟩
    cases j with
    | zero =>
      cases Option.some.inj atLower
      exact not
    | succ j => exact lowest j (Nat.lt_of_succ_lt_succ below) lower atLower
  · exact .inr ⟨List.forall_mem_cons.mpr ⟨not, nobody⟩, zero⟩

theorem matchRulesFirst (rules : List RouteRule) (ctx : RequestCtx) (left : Nat) (ruleId : UInt32)
    (bounded : ruleId.toNat + left ≤ 32) :
    FirstFit (·.Fits RouteRule.comparedPrefix ctx) ((rules.drop ruleId.toNat).take left)
      (matchRules (ruleTable rules) ctx left ruleId) := by
  induction left generalizing ruleId with
  | zero => exact .inr ⟨by simp, rfl⟩
  | succ left ih =>
    have counted : (ruleId + 1).toNat = ruleId.toNat + 1 := by
      rw [UInt32.toNat_add]
      exact Nat.mod_eq_of_lt (by change ruleId.toNat + 1 < 2 ^ 32; omega)
    have next := ih (ruleId + 1) (by omega)
    rw [counted] at next
    unfold matchRules
    cases read : ruleTable rules ruleId with
    | none =>
      have beyond : rules.length ≤ ruleId.toNat := List.getElem?_eq_none_iff.mp read
      exact .inr ⟨by simp [List.drop_eq_nil_of_le beyond], rfl⟩
    | some rule =>
      obtain ⟨inside, at_⟩ := List.getElem?_eq_some_iff.mp read
      rw [List.drop_eq_getElem_cons inside, at_, List.take_succ_cons]
      dsimp only
      split
      case isTrue differs =>
        exact firstFitNext (fun fit => fit.1.elim differs.2 differs.1) next
      case isFalse sameProtocol =>
        split
        case isTrue matched =>
          refine firstFitHere ⟨?_, matchPrefixExact.mp matched⟩ _
          by_contra neither
          exact sameProtocol ⟨fun same => neither (.inr same), fun zero => neither (.inl zero)⟩
        case isFalse unmatched =>
          exact firstFitNext (fun fit => unmatched (matchPrefixExact.mpr fit.2)) next

/-! ### The program -/

theorem routed {r r' : Routing} {cpu : Nat} (handed : routeManager r cpu = (r', .tailCall progLbPolicy)) :
    (r'.scratchMap cpu).clusterId = matchedCluster r (r.scratchMap cpu) := by
  unfold routeManager at handed
  split at handed
  · cases (Prod.mk.inj handed).2
  · cases (Prod.mk.inj handed).1
    simp

theorem firstMatchingRule {r r' : Routing} {cpu : Nat} {rules : List RouteRule}
    (protocol : (r.scratchMap cpu).protocol ≠ protoTlsPassthrough)
    (table : r.serviceConfigMap (r.scratchMap cpu).serviceId = some (ruleTable rules))
    (few : rules.length ≤ 32) (handed : routeManager r cpu = (r', .tailCall progLbPolicy)) :
    FirstFit (·.Fits RouteRule.comparedPrefix (r.scratchMap cpu)) rules (r'.scratchMap cpu).clusterId := by
  have first := matchRulesFirst rules (r.scratchMap cpu) 32 0 (by decide)
  have whole : (rules.drop (0 : UInt32).toNat).take 32 = rules := List.take_of_length_le few
  rw [whole] at first
  rw [routed handed, matchedCluster, if_neg protocol, table]
  exact first

/-! ### Rules that agree on 8 bytes -/

def padded (text : List UInt8) : Vector UInt8 64 := Vector.ofFn fun i => text.getD i 0

/-- "/api/v1/" and a letter that only the ninth byte holds. -/
def versioned (letter : UInt8) : List UInt8 := [47, 97, 112, 105, 47, 118, 49, 47, letter]

def servedBy (rules : List RouteRule) (path : List UInt8) : Routing where
  kernel := KernelMaps.loaded [] []
  scratchMap := fun _ => ⟨protoHttp1, 443, 0, padded path, UInt16.ofNat path.length⟩
  serviceConfigMap := fun serviceId => if serviceId = 443 then some (ruleTable rules) else none

def twoTenants : List RouteRule := [⟨0, padded (versioned 97), 1⟩, ⟨0, padded (versioned 98), 2⟩]

theorem twoTenantsHanded : routeManager (servedBy twoTenants (versioned 98)) 0 =
    ((routeManager (servedBy twoTenants (versioned 98)) 0).1, .tailCall progLbPolicy) := rfl

theorem firstMatchingRuleTenants :
    FirstFit (·.Fits RouteRule.comparedPrefix ((servedBy twoTenants (versioned 98)).scratchMap 0)) twoTenants
      (((routeManager (servedBy twoTenants (versioned 98)) 0).1).scratchMap 0).clusterId :=
  firstMatchingRule (by decide) rfl (by decide) twoTenantsHanded

theorem wholePrefixMissed :
    ¬ ∀ (r r' : Routing) (cpu : Nat) (rules : List RouteRule),
      (r.scratchMap cpu).protocol ≠ protoTlsPassthrough →
      r.serviceConfigMap (r.scratchMap cpu).serviceId = some (ruleTable rules) → rules.length ≤ 32 →
      routeManager r cpu = (r', .tailCall progLbPolicy) →
      FirstFit (·.Fits RouteRule.wholePrefix (r.scratchMap cpu)) rules (r'.scratchMap cpu).clusterId := by
  intro promised
  have second := promised _ _ 0 twoTenants (by decide) rfl (by decide) twoTenantsHanded
  have cluster : (((routeManager (servedBy twoTenants (versioned 98)) 0).1).scratchMap 0).clusterId = 1 := by
    decide
  rw [cluster] at second
  rcases second with ⟨i, rule, at_, fit, same, _⟩ | ⟨_, zero⟩
  · match i with
    | 0 =>
      cases Option.some.inj at_
      exact absurd fit.2 (by decide)
    | 1 =>
      cases Option.some.inj at_
      exact absurd same (by decide)
    | i + 2 => cases at_
  · exact absurd zero (by decide)

end OmegaLb.RouteManager
