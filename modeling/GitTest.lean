import GitTest.Pthread.Rwlock
import GitTest.Resolv.CacheSound
import GitTest.Cpp.If01
import GitTest.Cpp.Meaning
import GitTest.Pthread.Once
import GitTest.Pthread.Join
import GitTest.Pthread.KeyDelete
import GitTest.Pthread.Tls
import GitTest.Pthread.TimerSlots
import GitTest.Egit.Comparator
import GitTest.Property.Read
import GitTest.Egit.CommitList
import GitTest.Egit.SyncInfo
import GitTest.Egit.DecoratorJob
import GitTest.Egit.StagingTables
import GitTest.Egit.StagingEditor
import GitTest.Pthread.SemDestroy
import GitTest.Pthread.TimerCatchUp
import GitTest.Pthread.ThreadList
import GitTest.Egit.SyncMembers
import GitTest.Egit.VariantTree
import GitTest.Malloc.Leak
import GitTest.Resolv.QueryHash
import GitTest.Resolv.AnswerTtl
import GitTest.Resolv.ParseHandle
import GitTest.Resolv.Reads
import GitTest.Resolv.Nameservers
import GitTest.Pthread.MutexDestroy
import GitTest.Cpp.Lossless
import GitTest.Cpp.Folding
import GitTest.Cpp.RemoveVars
import GitTest.Egit.MoveDeleteHook
import GitTest.Egit.IgnorePattern
import GitTest.Egit.ProjectData
import GitTest.Egit.ChangeId
import GitTest.Egit.SignOff
import GitTest.Egit.ChangeSetSorter
import GitTest.Egit.EclipseDiff
import GitTest.Egit.CheckboxTree
import GitTest.Egit.GitDocument
import GitTest.Egit.RefSpecEdit
import GitTest.Egit.Blame
import GitTest.Egit.BranchHierarchy
import GitTest.Egit.RepositorySearch
import GitTest.Egit.NextTag
import GitTest.Egit.ProjectSet
import GitTest.Egit.ProgressTransformer
import GitTest.Egit.ProjectUtil
import GitTest.Malloc.Check
import GitTest.Tools.Syscalls
