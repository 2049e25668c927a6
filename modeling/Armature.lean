import Armature.RankInsert
import Armature.WorkflowNeeds
import Armature.DeskZones
import Armature.DeskRuns
import Armature.NqlRoundTrip
import Armature.NqlPlaceholders
import Armature.PlanAgain
import Armature.BoardRanks
import Armature.DocReadings
import Armature.WorkflowSave
import Armature.WorkflowAccepts
import Armature.WorkflowDesigner
import Armature.WikiWords
import Armature.WikiSize
import Armature.DocText
import Armature.PlanCounted
import Armature.PlanOnce
import Armature.PermKey
import Armature.PermAdmin
import Armature.IssueLinks
import Armature.Freshness
import Armature.GitPulls
import Armature.GitProxy
import Armature.EventDelivery
import Armature.MailInbound
import Armature.SmartOnce
import Armature.SecondFactorRuns
import Armature.AutomationRuns
import Armature.CsvImport
import Armature.IssueKeys
import Armature.FanOut
import Armature.Subscriptions
import Armature.NqlPieces
import Armature.NqlOperands
import Armature.DashboardFilter
import Armature.Digests
import Armature.ChartLines
import Armature.Grants
import Armature.AutoPlan
import Armature.IssueStore
import Armature.IssueSets
import Armature.IssueEdit
import Armature.AssigneeMail
import Armature.IssueTrail
import Armature.IssueFlow
import Armature.IssueResolved
import Armature.IssueTree
import Armature.SprintWork
import Armature.SprintReport
import Armature.PlanRollup
import Armature.PlanPlacing
import Armature.ScheduleMany
import Armature.WebhookTried
import Armature.WebhookSpread
import Armature.GoNames
import Armature.Attachments
import Armature.GoFilepath
import Armature.AttachmentFiles
import Armature.DeskRating
import Armature.RequestReply
import Armature.Scan
import Armature.ThemeCss
import Armature.ThemeSpec
import Armature.ThemeFiles
import Armature.ThemePortable
import Armature.ThemeTravels
import Armature.ThemeService
import Armature.CssTokens
import Armature.ThemeLoads
import Armature.PlanWeeks
import Armature.Islands
import Armature.WorkflowReach
import Armature.Like
import Armature.NqlContains
import Armature.NqlStored
import Armature.NqlTrichotomy
import Armature.NqlCasts
import Armature.ReplicaRouting
import Armature.RingBuffer
import Armature.LagWindow
import Armature.Occurrences
import Armature.Mentions
import Armature.PackCoding
import Armature.PackBound
import Armature.FanOutReasons
import Armature.LatestByKey
import Armature.CombineChecks
import Armature.FilterAddress
import Armature.RefusalReport
import Armature.GoUtf8
import Armature.BranchNames
import Armature.ByteStuffing
import Armature.MailPop3
import Armature.MailParts
import Armature.WallClock
import Armature.ScheduleTicks
import Armature.HeldBack
import Armature.IssueSubtree
import Armature.BulkChange
import Armature.DepthFirst
import Armature.InsertionMap
import Armature.LongestPath
import Armature.DependencyGraph
import Armature.DependencyLayers
import Armature.DependencyRows
import Armature.DependencyPicture
import Armature.NetAddr
import Armature.NetGuard
import Armature.Arrange
