import LinearNats.Server.SingleDelivery
import LinearNats.Client.Refinement
import LinearNats.Raft.Election
import LinearNats.Raft.Durability
import LinearNats.Store.Sync
import LinearNats.Consumer.Start
import LinearNats.Consumer.Purge
import LinearNats.Consumer.AckAll
import LinearNats.Consumer.Agreement
import LinearNats.FileStore.Rebuild
import LinearNats.Batch.Admission
import LinearNats.Batch.Expected
import LinearNats.Store.WheelCodec
import LinearNats.Avl.Balance
import LinearNats.Avl.Edges
import LinearNats.Stree.Intersect
import LinearNats.Sublist.Interest
import LinearNats.Sublist.Overlap
import LinearNats.Mqtt.Topic
import LinearNats.Server.PubPerms
import LinearNats.Server.IpQueue
import LinearNats.Server.SubjectTransform
import LinearNats.Accounts.Exports
import LinearNats.Store.SeqFromTime
import LinearNats.Store.MultiLast
import LinearNats.Raft.Decoders
import LinearNats.Raft.ApplyQueue
import LinearNats.Batch.Timeouts
import LinearNats.Client.ZigStream
import LinearNats.Cluster.StreamMsg
import LinearNats.Consumer.StateCodec
import LinearNats.Store.Limits
