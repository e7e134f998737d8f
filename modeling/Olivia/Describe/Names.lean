import Olivia.Core.Outcome
import Olivia.Core.Segments

/-! # Names in descriptions

Descriptions say more of an event where its path has one of a few shapes. Competitions and
teams known by a code are called by their long names, and any other name stands for itself.
-/
namespace Olivia.Describe

/-- `["s", competition, "match", date, _]`. -/
def matchSegments : List Str → Option (Str × Str)
  | [s,competition,m,date,_] =>
    if s = "s".toList ∧ m = "match".toList then some (competition,date) else none
  | _ => none

/-- `["time", datetime]`. -/
def timeSegments : List Str → Option Str
  | [time,datetime] => if time = "time".toList then some datetime else none
  | _ => none

/-- `["random", datetime, ..]`. -/
def randomSegments : List Str → Option Str
  | random :: datetime :: _ => if random = "random".toList then some datetime else none
  | _ => none

/-- `["x", exchange, instrument, time]`. -/
def instrumentSegments : List Str → Option (Str × Str × Str)
  | [x,exchange,instrument,time] => if x = "x".toList then some (exchange,instrument,time) else none
  | _ => none

def lookupCompetition (name : Str) : Str :=
  if name = "EPL".toList then "English Premier League".toList else name

/-- The teams of the league that are known by a code. -/
def teams : List (Str × Str) :=
  [("BRE".toList,"Brentford".toList),
   ("ARS".toList,"Arsenal".toList),
   ("MUN".toList,"Manchested United".toList),
   ("LEE".toList,"Leeds United".toList),
   ("BUR".toList,"Burnley".toList),
   ("BHA".toList,"Brighton and Hove Albion".toList),
   ("CHE".toList,"Chelsea".toList),
   ("CRY".toList,"Crystal Palace".toList),
   ("EVE".toList,"Everton".toList),
   ("SOU".toList,"Southampton".toList),
   ("LEI".toList,"Leicester City".toList),
   ("WOL".toList,"Wolverhampton Wanderers".toList),
   ("WAT".toList,"Watford".toList),
   ("AVL".toList,"Aston Villa".toList),
   ("NOR".toList,"Norwich City".toList),
   ("LIV".toList,"Liverpool".toList),
   ("NEW".toList,"Newcastle United".toList),
   ("WHU".toList,"West Ham United".toList),
   ("TOT".toList,"Tottenham Hotspur".toList),
   ("MCI".toList,"Manchester City".toList)]

def lookupTeam (competition name : Str) : Str :=
  if competition = "EPL".toList then (teams.lookup name).getD name else name

end Olivia.Describe
